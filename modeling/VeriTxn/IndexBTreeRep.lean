import VeriTxn.IndexBTree

/-!
# The node heap represents a B+-tree

`Rep nodes d parent succ t`: the heap holds the tree `t` of depth `d`, its root's
parent pointer is `parent`, and the `next` pointer of its last leaf is `succ`.
The code that inserts below the root of a represented tree leaves a heap that
represents the result of `Tree.insert`, or calls `insert_into_parent` for the
two halves of the root.
-/

namespace VeriTxn.IndexBTree

open BPlusTree

variable {K I : Type}

def Rep (nodes : Nat → Option (BtNode K I)) :
    (d : Nat) → Option Nat → Option Nat → Tree K (List I) d → Prop
  | 0, parent, succ, t =>
      nodes (Leaf.id t) = some ⟨(Leaf.entries t).map Prod.fst,
        .items ((Leaf.entries t).map Prod.snd), parent, succ⟩
  | d + 1, parent, succ, t =>
      (∃ next, nodes (Branch.id t) = some ⟨Branch.keys t,
        .nodes ((Branch.children t).map (Tree.id d)), parent, next⟩) ∧
      Linked (Rep nodes d (some (Branch.id t))) (Tree.firstLeaf d) succ (Branch.first t)
        (Branch.rest t)

/-- Representation reads only the nodes of the tree. -/
theorem Rep.frame {nodes nodes' : Nat → Option (BtNode K I)} :
    ∀ {d : Nat} {parent succ : Option Nat} {t : Tree K (List I) d}, Rep nodes d parent succ t →
      (∀ i ∈ t.ids d, nodes' i = nodes i) → Rep nodes' d parent succ t
  | 0, _, _, _, h, hsame => (hsame _ (List.mem_singleton_self _)).trans h
  | _ + 1, _, _, _, ⟨⟨next, hnode⟩, hlinked⟩, hsame => by
      refine ⟨⟨next, (hsame _ (List.mem_cons_self ..)).trans hnode⟩, hlinked.imp ?_⟩
      intro succ c hc hrep
      exact hrep.frame fun i hi => hsame i (List.mem_cons_of_mem _ (mem_under.mpr ⟨c, hc, hi⟩))

/-- Changing the parent pointer of the root. -/
theorem Rep.setParent {nodes nodes' : Nat → Option (BtNode K I)} {parent : Option Nat} :
    ∀ {d : Nat} {parent' succ : Option Nat} {t : Tree K (List I) d}, Rep nodes d parent' succ t →
      nodes' (t.id d) = (nodes (t.id d)).map (fun n => { n with parent := parent }) →
      (t.ids d).Nodup → (∀ i ∈ t.ids d, i ≠ t.id d → nodes' i = nodes i) →
      Rep nodes' d parent succ t
  | 0, _, _, t, h, hroot, _, _ => by
      change nodes' (Leaf.id t) = _
      rw [show nodes' (Leaf.id t) = _ from hroot, show nodes (Tree.id 0 t) = _ from h]
      rfl
  | d + 1, _, _, t, ⟨⟨next, hnode⟩, hlinked⟩, hroot, hnodup, hsame => by
      refine ⟨⟨next, ?_⟩, hlinked.imp fun succ c hc hrep => ?_⟩
      · rw [show nodes' (Branch.id t) = _ from hroot, show nodes (Tree.id (d + 1) t) = _ from hnode]
        rfl
      · refine hrep.frame fun i hi => ?_
        have hmem : i ∈ under (Tree.ids d) (Branch.first t) (Branch.rest t) :=
          mem_under.mpr ⟨c, hc, hi⟩
        refine hsame i (List.mem_cons_of_mem _ hmem) ?_
        rintro rfl
        exact (List.nodup_cons.mp hnodup).1 hmem

/-- The children that move to a new node keep what is below them. -/
theorem linked_setParent {nodes nodes' : Nat → Option (BtNode K I)} {d : Nat}
    {parent parent' succ : Option Nat} {c : Tree K (List I) d} {r : List (K × Tree K (List I) d)}
    (h : Linked (Rep nodes d parent) (Tree.firstLeaf d) succ c r)
    (hnodup : (under (Tree.ids d) c r).Nodup)
    (hnodes : ∀ i ∈ under (Tree.ids d) c r, nodes' i =
      if i ∈ (c :: r.map Prod.snd).map (Tree.id d) then
        (nodes i).map fun n => { n with parent := parent' }
      else nodes i) :
    Linked (Rep nodes' d parent') (Tree.firstLeaf d) succ c r := by
  refine h.imp fun succ t ht hrep => ?_
  obtain ⟨hnodup_t, hapart⟩ := eq_of_nodup_under hnodup t ht
  have hunder := fun i hi => hnodes i (mem_under.mpr ⟨t, ht, hi⟩)
  refine hrep.setParent ?_ hnodup_t fun i hi hne => ?_
  · rw [hunder _ (Tree.id_mem_ids t), if_pos (List.mem_map_of_mem ht)]
  · rw [hunder i hi, if_neg]
    intro hi'
    obtain ⟨t₂, ht₂, rfl⟩ := List.mem_map.mp hi'
    rw [hapart t₂ ht₂ _ hi (Tree.id_mem_ids t₂)] at hne
    exact hne rfl

/-- The root of a represented tree is in the heap, with its parent pointer. -/
theorem Rep.root {nodes : Nat → Option (BtNode K I)} : ∀ {d : Nat} {parent succ : Option Nat}
    {t : Tree K (List I) d}, Rep nodes d parent succ t →
      ∃ n, nodes (t.id d) = some n ∧ n.parent = parent
  | 0, _, _, _, h => ⟨_, h, rfl⟩
  | _ + 1, _, _, _, ⟨⟨_, hnode⟩, _⟩ => ⟨_, hnode, rfl⟩

namespace Index

@[simp] theorem setNode_nodes (s : Index K I) (id : Nat) (n : BtNode K I) :
    (s.setNode id n).nodes = Function.update s.nodes id (some n) := rfl

@[simp] theorem setNode_latches (s : Index K I) (id : Nat) (n : BtNode K I) :
    (s.setNode id n).latches = s.latches := rfl

@[simp] theorem setNode_btreeNodeId (s : Index K I) (id : Nat) (n : BtNode K I) :
    (s.setNode id n).btreeNodeId = s.btreeNodeId := rfl

@[simp] theorem setNode_root (s : Index K I) (id : Nat) (n : BtNode K I) :
    (s.setNode id n).root = s.root := rfl

@[simp] theorem makeNode_nodes (s : Index K I) (p : Pointers I) :
    (s.makeNode p).1.nodes =
      Function.update s.nodes (s.btreeNodeId + 1) (some ⟨[], p, none, none⟩) := rfl

@[simp] theorem makeNode_btreeNodeId (s : Index K I) (p : Pointers I) :
    (s.makeNode p).1.btreeNodeId = s.btreeNodeId + 1 := rfl

@[simp] theorem makeNode_root (s : Index K I) (p : Pointers I) :
    (s.makeNode p).1.root = s.root := rfl

@[simp] theorem makeNode_snd (s : Index K I) (p : Pointers I) :
    (s.makeNode p).2 = s.btreeNodeId + 1 := rfl

/-- Latches beyond the counter are free. -/
def FreshLatches (s : Index K I) : Prop := ∀ i, s.btreeNodeId < i → s.latches i = .free

theorem FreshLatches.makeNode {s : Index K I} (h : s.FreshLatches) (p : Pointers I) :
    (s.makeNode p).1.latches = s.latches := by
  change Function.update s.latches (s.btreeNodeId + 1) .free = s.latches
  rw [← h (s.btreeNodeId + 1) (Nat.lt_succ_self _), Function.update_eq_self]

/-- What an insertion below some nodes leaves alone. -/
structure Kept (s s' : Index K I) (ids : List Nat) : Prop where
  root : s'.root = s.root
  latches : s'.latches = s.latches
  mono : s.btreeNodeId ≤ s'.btreeNodeId
  nodes : ∀ i, i ∉ ids → i ≤ s.btreeNodeId → s'.nodes i = s.nodes i

theorem Kept.fresh {s s' : Index K I} {ids : List Nat} (h : Kept s s' ids)
    (hfresh : s.FreshLatches) : s'.FreshLatches := by
  intro i hi
  rw [h.latches]
  exact hfresh i (h.mono.trans_lt hi)

theorem Kept.widen {s s' : Index K I} {ids ids' : List Nat} (h : Kept s s' ids)
    (hsub : ids ⊆ ids') : Kept s s' ids' :=
  ⟨h.root, h.latches, h.mono, fun i hi => h.nodes i fun hi' => hi (hsub hi')⟩

/-- A second change, of nodes of the first one and of new ones. -/
theorem Kept.trans {s s₁ s₂ : Index K I} {ids ids' : List Nat} (h : Kept s s₁ ids)
    (h' : Kept s₁ s₂ ids') (hids : ∀ i ∈ ids', i ∈ ids ∨ s.btreeNodeId < i) : Kept s s₂ ids where
  root := h'.root.trans h.root
  latches := h'.latches.trans h.latches
  mono := h.mono.trans h'.mono
  nodes := by
    intro i hi hle
    rw [h'.nodes i ?_ (hle.trans h.mono), h.nodes i hi hle]
    intro hi'
    rcases hids i hi' with hold | hnew
    · exact hi hold
    · exact absurd hle (Nat.not_le.mpr hnew)

theorem setParents_eq (parent : Nat) {s : Index K I} {ids : List Nat}
    (h : ∀ i ∈ ids, s.nodes i ≠ none) :
    ∃ s', s.setParents parent ids = some s' ∧ s'.root = s.root ∧ s'.latches = s.latches ∧
      s'.btreeNodeId = s.btreeNodeId ∧ ∀ i, s'.nodes i = if i ∈ ids then
        (s.nodes i).map (fun n => { n with parent := some parent }) else s.nodes i := by
  induction ids generalizing s with
  | nil => exact ⟨s, rfl, rfl, rfl, rfl, by simp⟩
  | cons c ids ih =>
      obtain ⟨n, hn⟩ := Option.ne_none_iff_exists'.mp (h c (List.mem_cons_self ..))
      obtain ⟨s', hs', hroot, hlatches, hcount, hnodes⟩ :=
        ih (s := s.setNode c { n with parent := some parent }) (by
          intro i hi
          by_cases hic : i = c
          · subst hic
            simp
          · simp only [setNode_nodes, Function.update_of_ne hic]
            exact h i (List.mem_cons_of_mem _ hi))
      refine ⟨s', by simp [setParents, hn, hs'], hroot, hlatches, hcount, fun i => ?_⟩
      rw [hnodes i]
      by_cases hic : i = c
      · subst hic
        by_cases hmem : i ∈ ids <;> simp [hmem, hn]
      · simp only [setNode_nodes, Function.update_of_ne hic, List.mem_cons, hic, false_or]

/-- The nodes after `split_nl_insert` of `oldNode`, cut at separator `sep`, has
    moved the children `moved` to the new node. -/
theorem splitNl_eq {s : Index K I} (hfresh : s.FreshLatches) {oldNode leftIndex right : Nat}
    {key sep : K} {old : BtNode K I} {pointers kept moved : List Nat} {lkeys rkeys : List K}
    (hle : oldNode ≤ s.btreeNodeId) (hold : s.nodes oldNode = some old)
    (hpointers : old.pointers = .nodes pointers)
    (hkeys : old.keys.insertIdx leftIndex key = lkeys ++ sep :: rkeys)
    (hids : pointers.insertIdx (leftIndex + 1) right = kept ++ moved)
    (hlkeys : lkeys.length = cut btreeOrder - 1) (hkept : kept.length = cut btreeOrder)
    (hmoved : ∀ i ∈ moved, s.nodes i ≠ none) :
    ∃ s', s.splitNl oldNode leftIndex key right = some (s', sep, s.btreeNodeId + 1) ∧
      s'.root = s.root ∧ s'.latches = s.latches ∧ s'.btreeNodeId = s.btreeNodeId + 1 ∧
      ∀ i, s'.nodes i =
        (if i ∈ moved then Option.map fun n => { n with parent := some (s.btreeNodeId + 1) }
          else fun n => n)
        (if i = oldNode then some { old with
            keys := lkeys, pointers := .nodes kept, next := some (s.btreeNodeId + 1) }
          else if i = s.btreeNodeId + 1 then some ⟨rkeys, .nodes moved, old.parent, old.next⟩
          else s.nodes i) := by
  have hne : oldNode ≠ s.btreeNodeId + 1 := by omega
  have hcut : cut btreeOrder = (cut btreeOrder - 1) + 1 := rfl
  have htake : (lkeys ++ sep :: rkeys).take (cut btreeOrder - 1) = lkeys := by
    rw [← hlkeys, List.take_left]
  have hget : (lkeys ++ sep :: rkeys)[cut btreeOrder - 1]? = some sep := by
    rw [← hlkeys, List.getElem?_append_right (le_refl _), Nat.sub_self, List.getElem?_cons_zero]
  have hdrop : (lkeys ++ sep :: rkeys).drop (cut btreeOrder) = rkeys := by
    rw [List.append_cons]
    refine List.drop_left' ?_
    rw [List.length_append, List.length_singleton, hlkeys]
    exact hcut.symm
  have htake' : (kept ++ moved).take (cut btreeOrder) = kept := by rw [← hkept, List.take_left]
  have hdrop' : (kept ++ moved).drop (cut btreeOrder) = moved := by rw [← hkept, List.drop_left]
  let s₁ := ((s.makeNode (.nodes [])).1.setNode (s.btreeNodeId + 1)
    ⟨rkeys, .nodes moved, old.parent, old.next⟩).setNode oldNode { old with
      keys := lkeys, pointers := .nodes kept, next := some (s.btreeNodeId + 1) }
  have hs₁ : ∀ i, s₁.nodes i = if i = oldNode then some { old with
        keys := lkeys, pointers := .nodes kept, next := some (s.btreeNodeId + 1) }
      else if i = s.btreeNodeId + 1 then some ⟨rkeys, .nodes moved, old.parent, old.next⟩
      else s.nodes i := by
    intro i
    simp only [s₁, setNode_nodes, makeNode_nodes, Function.update_apply]
    split
    · rfl
    · split <;> rfl
  have hexists : ∀ i ∈ moved, s₁.nodes i ≠ none := by
    intro i hi
    rw [hs₁]
    split
    · simp
    · split
      · simp
      · exact hmoved i hi
  obtain ⟨s', hs', hroot, hlatches, hcount, hnodes⟩ := setParents_eq (s.btreeNodeId + 1) hexists
  refine ⟨s', ?_, hroot, hlatches.trans (hfresh.makeNode _), hcount, fun i => ?_⟩
  · simp only [splitNl, makeNode_nodes, makeNode_snd, Function.update_of_ne hne, hold,
      Option.bind_eq_bind, Option.bind_some, hpointers, hkeys, hids, hget, htake, hdrop, htake',
      hdrop']
    change (s₁.setParents _ moved).bind _ = _
    rw [hs', Option.bind_some]
  · rw [hnodes i, hs₁ i]
    split <;> rfl

/-! ### Inserting into a leaf -/

section Insert

variable [LinearOrder K]

/-- A chain after an insertion: the new item comes first. -/
def push (item : I) : Option (List I) → List I
  | none => [item]
  | some chain => item :: chain

/-- What the code still has to do after a subtree has grown. -/
def continueAt (fuel : Nat) (s : Index K I) :
    {d : Nat} → Grown K (Tree K (List I) d) → Option (Index K I)
  | _, .one _ => some s
  | d, .two l sep r => insertIntoParent fuel s (l.id d) sep (r.id d)

theorem leafHasKey_eq_none {keys : List K} {key : K} :
    leafHasKey keys key = none ↔ key ∉ keys := by
  simp only [leafHasKey, List.findIdx?_eq_none_iff, decide_eq_false_iff_not]
  exact ⟨fun h hmem => h key hmem rfl, fun h k hk heq => h (heq ▸ hk)⟩

theorem leafHasKey_eq_some {es : List (K × List I)} {key : K} {idx : Nat}
    (h : leafHasKey (es.map Prod.fst) key = some idx) :
    ∃ chain, es[idx]? = some (key, chain) ∧ (es.map Prod.snd)[idx]? = some chain := by
  obtain ⟨hlt, hkey, -⟩ := List.findIdx?_eq_some_iff_getElem.mp h
  rw [List.length_map] at hlt
  simp only [List.getElem_map, decide_eq_true_eq] at hkey
  refine ⟨es[idx].2, ?_, ?_⟩
  · rw [List.getElem?_eq_getElem hlt, ← hkey]
  · rw [List.getElem?_map, List.getElem?_eq_getElem hlt, Option.map_some]

/-- Inserting at a leaf does what `Tree.insert` does to it. -/
theorem insertAt_leaf {s : Index K I} {t : Tree K (List I) 0} {parent succ : Option Nat}
    (hrep : Rep s.nodes 0 parent succ t) (hsorted : Sorted (Leaf.entries t))
    (hlen : (Leaf.entries t).length < btreeOrder) (hid : Leaf.id t ≤ s.btreeNodeId)
    (hfresh : s.FreshLatches) (key : K) (item : I) (fuel : Nat) :
    ∃ s', s'.btreeNodeId = (Tree.insert btreeOrder key (push item) s.btreeNodeId 0 t).2 ∧
      Kept s s' (t.ids 0) ∧
      s.insertAt fuel (Leaf.id t) key item =
        continueAt fuel s' (Tree.insert btreeOrder key (push item) s.btreeNodeId 0 t).1 ∧
      (Tree.insert btreeOrder key (push item) s.btreeNodeId 0 t).1.Linked
        (Rep s'.nodes 0 parent) (Tree.firstLeaf 0) succ := by
  obtain ⟨id, es⟩ : Leaf K (List I) := t
  simp only at hsorted hlen hid ⊢
  have hnode : s.nodes id = some ⟨es.map Prod.fst, .items (es.map Prod.snd), parent, succ⟩ := hrep
  have hupdate : ∀ n, Kept s (s.setNode id n) [id] := by
    refine fun n => ⟨rfl, rfl, le_refl _, fun i hi _ => ?_⟩
    rw [setNode_nodes, Function.update_of_ne (by simpa using hi)]
  have hinsert : Tree.insert btreeOrder key (push item) s.btreeNodeId 0
      (⟨id, es⟩ : Leaf K (List I)) =
    leafOrSplit btreeOrder s.btreeNodeId id (upsert key (push item) es) := rfl
  rw [hinsert]
  cases hhas : leafHasKey (es.map Prod.fst) key with
  | some idx =>
      obtain ⟨chain, hentry, hchain⟩ := leafHasKey_eq_some hhas
      have hup := upsert_of_getElem? (f := push item) hsorted hentry
      rw [leafOrSplit, hup, List.length_set, if_pos hlen]
      refine ⟨s.setNode id ⟨es.map Prod.fst, .items ((es.map Prod.snd).set idx (item :: chain)),
        parent, succ⟩, rfl, hupdate _, ?_, ?_⟩
      · simp [insertAt, insertIntoLeaf, hnode, hhas, hchain, continueAt]
      · change Function.update _ _ _ _ = _
        have hkeys : (es.map Prod.fst)[idx]? = some key := by
          rw [List.getElem?_map, hentry, Option.map_some]
        obtain ⟨hlt, hget⟩ := List.getElem?_eq_some_iff.mp hkeys
        have hset : (es.map Prod.fst).set idx key = es.map Prod.fst := by
          rw [← hget, List.set_getElem_self]
        rw [Function.update_self, List.map_set, List.map_set, hset]
        rfl
  | none =>
      have hmem := leafHasKey_eq_none.mp hhas
      have hup := upsert_of_not_mem (f := push item) hmem
      have hcount : (upsert key (push item) es).length = es.length + 1 := by
        rw [hup, List.length_insertIdx_of_le_length]
        simpa using position_le_length key (es.map Prod.fst)
      have hkeys : (upsert key (push item) es).map Prod.fst =
          (es.map Prod.fst).insertIdx (position key (es.map Prod.fst)) key := by
        rw [hup, List.map_insertIdx]
      have hchains : (upsert key (push item) es).map Prod.snd =
          (es.map Prod.snd).insertIdx (position key (es.map Prod.fst)) [item] := by
        rw [hup, List.map_insertIdx]
        rfl
      rcases leafOrSplit_cases (by decide : 2 ≤ btreeOrder) s.btreeNodeId id
        (upsert key (push item) es) with ⟨hlt, heq⟩ | ⟨l, e, r, hes, hl, hge, heq⟩
      · rw [heq]
        have hroom : es.length < btreeOrder - 1 := by omega
        have hroom' : ((es.map Prod.fst).insertIdx (position key (es.map Prod.fst)) key).length <
            btreeOrder := by
          rw [← hkeys, List.length_map]
          exact hlt
        refine ⟨s.setNode id ⟨(upsert key (push item) es).map Prod.fst,
          .items ((upsert key (push item) es).map Prod.snd), parent, succ⟩, rfl, hupdate _, ?_,
          Function.update_self ..⟩
        simp [insertAt, insertIntoLeaf, hnode, hhas, continueAt, hroom, hroom', hkeys, hchains]
      · rw [heq]
        have hfull : es.length = btreeOrder - 1 := by omega
        rw [hes] at hkeys hchains
        have hne : s.btreeNodeId + 1 ≠ id := by omega
        refine ⟨((s.makeNode (.items [])).1.setNode (s.btreeNodeId + 1) ⟨(e :: r).map Prod.fst,
          .items ((e :: r).map Prod.snd), parent, succ⟩).setNode id ⟨l.map Prod.fst,
          .items (l.map Prod.snd), parent, some (s.btreeNodeId + 1)⟩, rfl, ?_, ?_, ?_, ?_⟩
        · refine ⟨rfl, hfresh.makeNode _, Nat.le_succ _, fun i hi hle => ?_⟩
          have hi' : i ≠ id := fun h => hi (h ▸ List.mem_singleton_self _)
          have hi'' : i ≠ s.btreeNodeId + 1 := by omega
          simp [hi', hi'']
        · simp only [insertAt, splitLfInsert, hnode, Option.bind_eq_bind, Option.bind_some, hhas,
            Option.isSome_none, hfull, List.length_map, lt_irrefl, Bool.false_eq_true, or_self,
            if_false, makeNode_nodes, makeNode_snd, Function.update_of_ne hne.symm, if_true,
            ← hkeys, ← hchains, ← hl]
          simp [continueAt, Tree.id]
        · change Function.update _ _ _ _ = _
          rw [Function.update_self]
          rfl
        · change Function.update _ _ _ _ = _
          rw [Function.update_of_ne hne, setNode_nodes, Function.update_self]

/-! ### Inserting below an inner node -/

/-- Labels of a tree and those drawn after them are distinct. -/
theorem nodup_append_range {ids : List Nat} {n : Nat} (hnodup : ids.Nodup)
    (hbound : ∀ i ∈ ids, i ≤ n) (m : Nat) : (ids ++ List.range' (n + 1) m).Nodup := by
  refine List.nodup_append'.mpr ⟨hnodup, List.nodup_range', fun i hi hi' => ?_⟩
  have := hbound i hi
  have := (List.mem_range'_1.mp hi').1
  omega

/-- One round of `insert_into_parent` at a parent: what is left to insert above it. -/
def parentStep (s : Index K I) (parent : Nat) (key : K) (right : Nat) :
    Option (Index K I × Option (K × Nat)) := do
  let n ← s.nodes parent
  let insertIdx := position key n.keys
  if n.keys.length < btreeOrder - 1 then
    match n.pointers with
    | .items _ => none
    | .nodes ids =>
        some (s.setNode parent { n with
          keys := n.keys.insertIdx insertIdx key
          pointers := .nodes (ids.insertIdx (insertIdx + 1) right) }, none)
  else (s.splitNl parent insertIdx key right).map fun (s, kPrime, newNode) =>
    (s, some (kPrime, newNode))

/-- `insert_into_parent` makes one round and goes on above. -/
theorem insertIntoParent_succ {s : Index K I} {left right parent : Nat} {key : K}
    {nleft : BtNode K I} (hleft : s.nodes left = some nleft)
    (hparent : nleft.parent = some parent) (fuel : Nat) :
    insertIntoParent (fuel + 1) s left key right = (s.parentStep parent key right).bind fun
      | (s, none) => some s
      | (s, some (kPrime, newNode)) => insertIntoParent fuel s parent kPrime newNode := by
  simp only [insertIntoParent, hleft, hparent, Option.bind_eq_bind, Option.bind_some, parentStep]
  cases s.nodes parent with
  | none => rfl
  | some n =>
      simp only [Option.bind_some]
      split
      · cases n.pointers <;> rfl
      · rw [splitNlInsert]
        cases s.splitNl parent (position key n.keys) key right <;> rfl

/-- What is left to do above a tree that has grown. -/
def carried {d : Nat} : Grown K (Tree K (List I) d) → Option (K × Nat)
  | .one _ => none
  | .two _ sep r => some (sep, r.id d)

/-- Going on above a child that has grown is one round at its parent. -/
theorem continueAt_succ {d : Nat} {s s' : Index K I} {below : Grown K (Tree K (List I) d)}
    {grown : Grown K (Tree K (List I) (d + 1))} {n : BtNode K I}
    (hn : s.nodes (below.head.id d) = some n) (hparent : n.parent = some (grown.head.id (d + 1)))
    (hstep : match carried below with
      | none => s' = s ∧ carried grown = none
      | some (sep, right) =>
          s.parentStep (grown.head.id (d + 1)) sep right = some (s', carried grown))
    (fuel : Nat) : continueAt (fuel + 1) s below = continueAt fuel s' grown := by
  cases below with
  | one c =>
      obtain ⟨rfl, hcarried⟩ := hstep
      cases grown with
      | one t => rfl
      | two l sep r => cases hcarried
  | two l sep r =>
      have hstep' : s.parentStep (grown.head.id (d + 1)) sep (r.id d) =
          some (s', carried grown) := hstep
      have hn' : s.nodes (l.id d) = some n := hn
      rw [continueAt, insertIntoParent_succ hn' hparent, hstep', Option.bind_some]
      cases grown <;> rfl

/-- An inner node into whose children one more is entered. -/
structure Entered {d : Nat} (s : Index K I) (id : Nat) (parent next succ : Option Nat) (keys : List K)
    (ids : List Nat) (sep : K) (right : Nat)
    (node : Tree K (List I) d × List (K × Tree K (List I) d)) : Prop where
  old : s.nodes id = some ⟨keys, .nodes ids, parent, next⟩
  keys_eq : keys.insertIdx (position sep keys) sep = node.2.map Prod.fst
  ids_eq : ids.insertIdx (position sep keys + 1) right =
    (node.1 :: node.2.map Prod.snd).map (Tree.id d)
  linked : Linked (Rep s.nodes d (some id)) (Tree.firstLeaf d) succ node.1 node.2
  bound : ∀ i ∈ under (Tree.ids d) node.1 node.2, i ≤ s.btreeNodeId ∧ i ≠ id
  nodup : (under (Tree.ids d) node.1 node.2).Nodup
  id_le : id ≤ s.btreeNodeId

section Entered

variable {d : Nat} {s : Index K I} {id : Nat} {parent next succ : Option Nat} {keys : List K}
  {ids : List Nat} {sep : K} {right : Nat}
  {node : Tree K (List I) d × List (K × Tree K (List I) d)}

/-- There is room for it. -/
theorem Entered.fits (h : Entered s id parent next succ keys ids sep right node)
    (hroom : keys.length < btreeOrder - 1) :
    ∃ s', s.parentStep id sep right = some (s', none) ∧ s'.btreeNodeId = s.btreeNodeId ∧
      Kept s s' [id] ∧
      Rep s'.nodes (d + 1) parent succ (⟨id, node.1, node.2⟩ : Branch K (Tree K (List I) d)) := by
  refine ⟨s.setNode id ⟨node.2.map Prod.fst,
    .nodes ((node.1 :: node.2.map Prod.snd).map (Tree.id d)), parent, next⟩, ?_, rfl, ?_,
    ⟨next, Function.update_self ..⟩, ?_⟩
  · simp only [parentStep, h.old, Option.bind_eq_bind, Option.bind_some, if_pos hroom, h.keys_eq,
      h.ids_eq]
  · refine ⟨rfl, rfl, le_rfl, fun i hi _ => ?_⟩
    rw [setNode_nodes, Function.update_of_ne (List.ne_of_not_mem_cons hi)]
  · refine h.linked.imp fun succ c hc hrep => hrep.frame fun i hi => ?_
    rw [setNode_nodes, Function.update_of_ne (h.bound i (mem_under.mpr ⟨c, hc, hi⟩)).2]

/-- There is none, and the node is split; the children behind the middle get a new parent. -/
theorem Entered.split (h : Entered s id parent next succ keys ids sep right node)
    (hfresh : s.FreshLatches) (hfull : ¬ keys.length < btreeOrder - 1)
    {l r : List (K × Tree K (List I) d)} {sep' : K} {c : Tree K (List I) d}
    (hnode : node.2 = l ++ (sep', c) :: r) (hl : l.length = cut btreeOrder - 1) :
    ∃ s', s.parentStep id sep right = some (s', some (sep', s.btreeNodeId + 1)) ∧
      s'.btreeNodeId = s.btreeNodeId + 1 ∧
      Kept s s' (id :: under (Tree.ids d) node.1 node.2) ∧
      Rep s'.nodes (d + 1) parent (some (c.firstLeaf d))
        (⟨id, node.1, l⟩ : Branch K (Tree K (List I) d)) ∧
      Rep s'.nodes (d + 1) parent succ
        (⟨s.btreeNodeId + 1, c, r⟩ : Branch K (Tree K (List I) d)) := by
  obtain ⟨hold, hkeys, hids, hlinked, hbound, hnodup, hid⟩ := h
  rw [hnode] at hkeys hids hlinked hbound hnodup ⊢
  rw [List.map_append, List.map_cons] at hkeys
  replace hids : ids.insertIdx (position sep keys + 1) right =
      (node.1 :: l.map Prod.snd).map (Tree.id d) ++ (c :: r.map Prod.snd).map (Tree.id d) := by
    rw [hids]
    simp only [List.map_append, List.map_cons, List.cons_append]
  obtain ⟨hleft, hright⟩ := linked_append.mp hlinked
  rw [under_append] at hbound hnodup ⊢
  obtain ⟨-, hnodup_right, hdisjoint⟩ := List.nodup_append'.mp hnodup
  -- the roots of the moved children are in the heap, and nothing else is moved
  have hmoved : ∀ i ∈ (c :: r.map Prod.snd).map (Tree.id d), i ∈ under (Tree.ids d) c r := by
    intro i hi
    obtain ⟨t, ht, rfl⟩ := List.mem_map.mp hi
    exact mem_under.mpr ⟨t, ht, Tree.id_mem_ids t⟩
  have hexists : ∀ i ∈ (c :: r.map Prod.snd).map (Tree.id d), s.nodes i ≠ none := by
    intro i hi
    obtain ⟨t, ht, rfl⟩ := List.mem_map.mp hi
    obtain ⟨succ, hrep⟩ := hright.exists t ht
    obtain ⟨n, hn, -⟩ := hrep.root
    rw [hn]
    exact Option.some_ne_none n
  have hcut : cut btreeOrder = (cut btreeOrder - 1) + 1 := rfl
  obtain ⟨s', hrun, hroot, hlatches, hcount, hnodes⟩ := splitNl_eq hfresh hid hold rfl hkeys hids
    (by rw [List.length_map, hl])
    (by rw [List.length_map, List.length_cons, List.length_map, hl, ← hcut]) hexists
  refine ⟨s', ?_, hcount, ⟨hroot, hlatches, hcount ▸ Nat.le_succ _, ?_⟩,
    ⟨⟨some (s.btreeNodeId + 1), ?_⟩, ?_⟩, ⟨next, ?_⟩, ?_⟩
  · simp only [parentStep, hold, Option.bind_eq_bind, Option.bind_some, if_neg hfull, hrun,
      Option.map_some]
  · intro i hi hle
    have hne : i ≠ id := fun heq => hi (heq ▸ List.mem_cons_self ..)
    have hnew : i ≠ s.btreeNodeId + 1 := by omega
    rw [hnodes, if_neg hne, if_neg hnew, if_neg]
    exact fun hi' => hi (List.mem_cons_of_mem _ (List.mem_append_right _ (hmoved i hi')))
  · have hnot : id ∉ (c :: r.map Prod.snd).map (Tree.id d) := fun hi =>
      (hbound id (List.mem_append_right _ (hmoved id hi))).2 rfl
    rw [hnodes, if_neg hnot, if_pos rfl]
    rfl
  · refine hleft.imp fun succ t ht hrep => hrep.frame fun i hi => ?_
    have hunder : i ∈ under (Tree.ids d) node.1 l := mem_under.mpr ⟨t, ht, hi⟩
    obtain ⟨hle, hne⟩ := hbound i (List.mem_append_left _ hunder)
    have hnew : i ≠ s.btreeNodeId + 1 := by omega
    rw [hnodes, if_neg hne, if_neg hnew, if_neg fun hi' => hdisjoint hunder (hmoved i hi')]
  · have hnot : s.btreeNodeId + 1 ∉ (c :: r.map Prod.snd).map (Tree.id d) := by
      intro hi
      have := (hbound _ (List.mem_append_right _ (hmoved _ hi))).1
      omega
    have hne : s.btreeNodeId + 1 ≠ id := by omega
    rw [hnodes, if_neg hnot, if_neg hne, if_pos rfl]
    rfl
  · refine linked_setParent hright hnodup_right fun i hi => ?_
    obtain ⟨hle, hne⟩ := hbound i (List.mem_append_right _ hi)
    have hnew : i ≠ s.btreeNodeId + 1 := by omega
    rw [hnodes, if_neg hne, if_neg hnew]
    split <;> rfl

end Entered

/-- One level up: what the code does at an inner node after it has inserted
    below one of its children. -/
theorem insertAt_inner {d : Nat} {s s₁ : Index K I} {t : Tree K (List I) (d + 1)}
    {parent succ : Option Nat} {lo : WithBot K} {hi : WithTop K}
    {below : Grown K (Tree K (List I) d)} {key : K}
    (hrep : Rep s.nodes (d + 1) parent succ t) (hnodup : (t.ids (d + 1)).Nodup)
    (hbound : ∀ i ∈ t.ids (d + 1), i ≤ s.btreeNodeId) (hfresh : s.FreshLatches)
    (hroom : (Branch.rest t).length < btreeOrder)
    (hkept : Kept s s₁ ((route key (Branch.first t) (Branch.rest t)).ids d))
    (hid : below.head.id d = (route key (Branch.first t) (Branch.rest t)).id d)
    (hlinked : Linked (Rep s₁.nodes d (some (Branch.id t))) (Tree.firstLeaf d) succ
      (regraft key below (Branch.first t) (Branch.rest t)).1
      (regraft key below (Branch.first t) (Branch.rest t)).2)
    (hperm : (under (Tree.ids d) (regraft key below (Branch.first t) (Branch.rest t)).1
      (regraft key below (Branch.first t) (Branch.rest t)).2).Perm
      (under (Tree.ids d) (Branch.first t) (Branch.rest t) ++
        List.range' (s.btreeNodeId + 1) (s₁.btreeNodeId - s.btreeNodeId)))
    (hbetween : Between (Tree.Ordered d) lo hi
      (regraft key below (Branch.first t) (Branch.rest t)).1
      (regraft key below (Branch.first t) (Branch.rest t)).2) :
    ∃ s', s'.btreeNodeId = (innerOrSplit btreeOrder s₁.btreeNodeId (Branch.id t)
        (regraft key below (Branch.first t) (Branch.rest t))).2 ∧
      Kept s s' (t.ids (d + 1)) ∧
      (match carried below with
        | none => s' = s₁ ∧ carried (d := d + 1) (innerOrSplit btreeOrder s₁.btreeNodeId
            (Branch.id t) (regraft key below (Branch.first t) (Branch.rest t))).1 = none
        | some (sep, right) => s₁.parentStep (Branch.id t) sep right =
            some (s', carried (d := d + 1) (innerOrSplit btreeOrder s₁.btreeNodeId (Branch.id t)
              (regraft key below (Branch.first t) (Branch.rest t))).1)) ∧
      (innerOrSplit btreeOrder s₁.btreeNodeId (Branch.id t)
        (regraft key below (Branch.first t) (Branch.rest t))).1.Linked
        (Rep s'.nodes (d + 1) parent) (Tree.firstLeaf (d + 1)) succ := by
  obtain ⟨id, first, rest⟩ : Branch K (Tree K (List I) d) := t
  obtain ⟨⟨next, hnode⟩, -⟩ := hrep
  simp only [Tree.ids, Branch.keys, Branch.children] at *
  obtain ⟨hid_under, hnodup_under⟩ := List.nodup_cons.mp hnodup
  have hid_le : id ≤ s.btreeNodeId := hbound id (List.mem_cons_self ..)
  have hall : (under (Tree.ids d) (regraft key below first rest).1
      (regraft key below first rest).2).Nodup :=
    hperm.nodup_iff.mpr (nodup_append_range hnodup_under
      (fun i hi => hbound i (List.mem_cons_of_mem _ hi)) _)
  -- the labels below are old ones of the tree or new ones
  have hmem : ∀ i ∈ under (Tree.ids d) (regraft key below first rest).1
      (regraft key below first rest).2, i ≤ s₁.btreeNodeId ∧ i ≠ id ∧
        (i ∈ under (Tree.ids d) first rest ∨ s.btreeNodeId < i) := by
    intro i hi
    rcases List.mem_append.mp (hperm.mem_iff.mp hi) with hold | hnew
    · refine ⟨(hbound i (List.mem_cons_of_mem _ hold)).trans hkept.mono, ?_, Or.inl hold⟩
      rintro rfl
      exact hid_under hold
    · obtain ⟨hlo, hhi⟩ := List.mem_range'_1.mp hnew
      have := hkept.mono
      exact ⟨by omega, by omega, Or.inr (by omega)⟩
  have hnode₁ : s₁.nodes id = some ⟨rest.map Prod.fst,
      .nodes ((first :: rest.map Prod.snd).map (Tree.id d)), parent, next⟩ := by
    rw [hkept.nodes id ?_ hid_le, hnode]
    intro hid'
    exact hid_under (mem_under.mpr ⟨_, route_mem key first rest, hid'⟩)
  have hkept' : Kept s s₁ (id :: under (Tree.ids d) first rest) := hkept.widen fun i hi =>
    List.mem_cons_of_mem _ (mem_under.mpr ⟨_, route_mem key first rest, hi⟩)
  cases below with
  | one c =>
      have hkeys := regraft_one_keys key c first rest
      have hids := regraft_one_children (Tree.id d) hid
      have hlen : (regraft key (.one c) first rest).2.length < btreeOrder := by
        rw [← List.length_map (f := Prod.fst), hkeys, List.length_map]
        exact hroom
      rw [innerOrSplit, if_pos hlen]
      exact ⟨s₁, rfl, hkept', ⟨rfl, rfl⟩, ⟨next, by rw [hnode₁, ← hkeys, ← hids]; rfl⟩, hlinked⟩
  | two l sep r =>
      have hpos := position_eq_slot hbetween
      have hkeys := regraft_two_keys key sep l r first rest
      have hids := regraft_two_children (Tree.id d) (s := sep) (l := l) (r := r) hid
      rw [← hpos] at hkeys hids
      have hlen : (regraft key (.two l sep r) first rest).2.length =
          (rest.map Prod.fst).length + 1 := by
        have := congrArg List.length hkeys
        rwa [List.length_map, List.length_insertIdx_of_le_length (position_le_length ..)] at this
      generalize regraft key (.two l sep r) first rest = node at *
      have hentered : Entered s₁ id parent next succ _ _ sep (r.id d) node :=
        ⟨hnode₁, hkeys.symm, hids.symm, hlinked, fun i hi => ⟨(hmem i hi).1, (hmem i hi).2.1⟩, hall,
          hid_le.trans hkept.mono⟩
      rcases innerOrSplit_cases (by decide : 2 ≤ btreeOrder) s₁.btreeNodeId id node with
        ⟨hlt, heq⟩ | ⟨l', sep', c', r', hnode', hl', hge, heq⟩
      · obtain ⟨s', hstep, hcount, hkept₁, hrep⟩ := hentered.fits (by omega)
        rw [heq]
        refine ⟨s', hcount, hkept'.trans hkept₁ fun i hi => ?_, hstep, hrep⟩
        exact Or.inl (List.mem_singleton.mp hi ▸ List.mem_cons_self ..)
      · obtain ⟨s', hstep, hcount, hkept₁, hleft, hright⟩ :=
          hentered.split (hkept.fresh hfresh) (by omega) hnode' hl'
        rw [heq]
        refine ⟨s', hcount, hkept'.trans hkept₁ fun i hi => ?_, hstep, hleft, hright⟩
        rcases List.mem_cons.mp hi with rfl | hi
        · exact Or.inl (List.mem_cons_self ..)
        · exact (hmem i hi).2.2.imp_left (List.mem_cons_of_mem _)

/-- Insertion below the root of a represented tree. -/
theorem insertAt_tree (key : K) (item : I) : ∀ {d least : Nat} {s : Index K I}
    {t : Tree K (List I) d} {parent succ : Option Nat} {lo : WithBot K} {hi : WithTop K},
    Rep s.nodes d parent succ t → (t.ids d).Nodup → (∀ i ∈ t.ids d, i ≤ s.btreeNodeId) →
    s.FreshLatches → t.Ordered d lo hi → lo ≤ ↑key → ↑key < hi →
    t.Occupied btreeOrder least d → ∀ fuel,
      ∃ s', s'.btreeNodeId = (Tree.insert btreeOrder key (push item) s.btreeNodeId d t).2 ∧
        Kept s s' (t.ids d) ∧
        s.insertAt (fuel + d) (t.leafOf key d).id key item =
          continueAt fuel s' (Tree.insert btreeOrder key (push item) s.btreeNodeId d t).1 ∧
        (Tree.insert btreeOrder key (push item) s.btreeNodeId d t).1.Linked
          (Rep s'.nodes d parent) (Tree.firstLeaf d) succ
  | 0, _, s, t, parent, succ, lo, hi, hrep, _, hbound, hfresh, hordered, _, _, hsize, fuel =>
      insertAt_leaf hrep hordered.1 hsize.2 (hbound _ (List.mem_singleton_self _)) hfresh key item
        fuel
  | d + 1, _, s, t, parent, succ, lo, hi, hrep, hnodup, hbound, hfresh, hordered, hlo, hhi, hsize,
      fuel => by
      obtain ⟨hid_under, hnodup_under⟩ := List.nodup_cons.mp hnodup
      have hsub : ∀ i ∈ (route key (Branch.first t) (Branch.rest t)).ids d,
          i ∈ under (Tree.ids d) (Branch.first t) (Branch.rest t) := fun i hi =>
        mem_under.mpr ⟨_, route_mem key _ _, hi⟩
      obtain ⟨succ', hchild, hgraft⟩ := hrep.2.regraft (k := key) hnodup_under
      obtain ⟨lo', hi', hlo', hhi', hordered', hbetween⟩ := Between.regraft hordered hlo hhi
      obtain ⟨s₁, hcount, hkept, hrun, hlinked⟩ := insertAt_tree key item hchild
        (eq_of_nodup_under hnodup_under _ (route_mem key _ _)).1
        (fun i hi => hbound i (List.mem_cons_of_mem _ (hsub i hi))) hfresh hordered' hlo' hhi'
        (hsize.2.2 _ (route_mem key _ _)) (fuel + 1)
      have horder : 2 ≤ btreeOrder := by decide
      obtain ⟨hmono, hperm⟩ := Tree.perm_insert horder key (push item) s.btreeNodeId
        (route key (Branch.first t) (Branch.rest t))
      have hall := hbetween _
        (hordered'.insert (by decide : 3 ≤ btreeOrder) key (push item) s.btreeNodeId hlo' hhi')
      rw [← hcount] at hperm
      have hlinked' := hgraft (Rep s₁.nodes d (some (Branch.id t))) _ (by
        intro succ c hc hdisjoint hrep
        refine hrep.frame fun i hi => hkept.nodes i (hdisjoint hi) ?_
        exact hbound i (List.mem_cons_of_mem _ (mem_under.mpr ⟨c, hc, hi⟩))) hlinked
        (Tree.firstLeaf_insert horder key (push item) s.btreeNodeId _)
      obtain ⟨s', hcount', hkept', hstep, hlinked''⟩ := insertAt_inner hrep hnodup
        hbound hfresh hsize.2.1 hkept (Tree.id_insert horder key (push item) s.btreeNodeId _)
        hlinked' (perm_regraft hperm) hall
      rw [Tree.insert]
      simp only [← hcount]
      refine ⟨s', hcount', hkept', ?_, hlinked''⟩
      rw [show fuel + (d + 1) = fuel + 1 + d by omega]
      refine hrun.trans ?_
      obtain ⟨succ₁, hhead⟩ := hlinked'.exists _ (head_mem_regraft key _ _ _)
      obtain ⟨n, hn, hparent⟩ := hhead.root
      have hid' : Tree.id (d + 1) (Grown.head (innerOrSplit btreeOrder s₁.btreeNodeId
          (Branch.id t) (regraft key (Tree.insert btreeOrder key (push item) s.btreeNodeId d
            (route key (Branch.first t) (Branch.rest t))).1 (Branch.first t) (Branch.rest t))).1) =
          Branch.id t := by
        rw [hcount]
        exact Tree.id_insert horder key (push item) s.btreeNodeId t
      refine continueAt_succ hn ?_ ?_ fuel
      · rw [hparent, hid']
      · rw [hid']
        exact hstep

end Insert

end Index

end VeriTxn.IndexBTree
