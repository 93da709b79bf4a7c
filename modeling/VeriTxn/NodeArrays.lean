import VeriTxn.IndexBTreeInvariant

/-!
# The arrays of the B+-tree nodes

A node has `BTREE_ORDER - 1` keys and `BTREE_ORDER` pointers, whatever `num_keys` says.  The lists
below are the indices with which the functions of `index_btree` read and write these arrays and
their temporary ones, in the order of the source; a loop condition that reads before it tests the
index does so here too.
-/

namespace VeriTxn.IndexBTree

open BPlusTree Transition

variable {K I : Type}

/-- The arrays of a node, those of `split_lf_insert` and those of `split_nl_insert`. -/
inductive ArrayName where
  | keys | pointers | lfKeys | lfPointers | nlKeys | nlPointers
deriving DecidableEq

/-- With how many entries an array is allocated. -/
def ArrayName.size : ArrayName → Nat
  | .keys => btreeOrder - 1
  | .pointers => btreeOrder
  | .lfKeys => btreeOrder
  | .lfPointers => btreeOrder
  | .nlKeys => btreeOrder
  | .nlPointers => btreeOrder + 1

/-- A read or write of an entry. -/
structure Access where
  array : ArrayName
  index : Nat
deriving DecidableEq

/-- The accesses are in the arrays. -/
def InArrays (accesses : List Access) : Prop := ∀ a ∈ accesses, a.index < a.array.size

/-- The same index into several arrays. -/
def each (arrays : List ArrayName) (i : Nat) : List Access := arrays.map (⟨·, i⟩)

/-- Where entry `i` goes when `gap` is left free. -/
def skip (gap i : Nat) : Nat := if i < gap then i else i + 1

/-- A loop over the used keys from `i` on that ends where `stop` holds. -/
def scanned (stop : K → Bool) : List K → (i : Nat) → List Access
  | [], _ => []
  | k :: keys, i => ⟨.keys, i⟩ :: if stop k then [] else scanned stop keys (i + 1)

/-- `while (parent->keys[insert_idx] < key && insert_idx < parent->num_keys)`. -/
def parentScanned [LinearOrder K] (key : K) : List K → (i : Nat) → List Access
  | [], i => [⟨.keys, i⟩]
  | k :: keys, i => ⟨.keys, i⟩ :: if k < key then parentScanned key keys (i + 1) else []

section Functions

variable [LinearOrder K]

/-- `insert_into_leaf`. -/
def leafAccesses (key : K) (keys : List K) : List Access :=
  scanned (· = key) keys 0 ++
    match Index.leafHasKey keys key with
    | some idx => [⟨.pointers, idx⟩]
    | none =>
        let insertionPoint := position key keys
        scanned (¬ · < key) keys 0 ++
          ((List.range (keys.length - insertionPoint)).flatMap fun j =>
            each [.keys, .pointers] (keys.length - j) ++
              each [.keys, .pointers] (keys.length - j - 1)) ++
          each [.keys, .pointers] insertionPoint

/-- `split_lf_insert` up to the call of `insert_into_parent`. -/
def splitLfAccesses (key : K) (keys : List K) : List Access :=
  let insertionIndex := position key keys
  let split := cut (btreeOrder - 1)
  scanned (¬ · < key) keys 0 ++
    ((List.range keys.length).flatMap fun i =>
      each [.keys, .pointers] i ++ each [.lfKeys, .lfPointers] (skip insertionIndex i)) ++
    each [.lfKeys, .lfPointers] insertionIndex ++
    (List.range split).flatMap (each [.pointers, .keys, .lfPointers, .lfKeys]) ++
    ((List.range' split (btreeOrder - split)).flatMap fun i =>
      each [.pointers, .keys] (i - split) ++ each [.lfPointers, .lfKeys] i) ++
    (List.range' split (btreeOrder - 1 - split)).flatMap (each [.pointers]) ++
    (List.range' (btreeOrder - split) (btreeOrder - 1 - (btreeOrder - split))).flatMap
      (each [.pointers]) ++
    [⟨.keys, 0⟩]

/-- `split_nl_insert` of a node with so many keys, up to the call of `insert_into_parent`. -/
def splitNlAccesses (leftIndex numKeys : Nat) : List Access :=
  let split := cut btreeOrder
  ((List.range (numKeys + 1)).flatMap fun i =>
    [⟨.pointers, i⟩, ⟨.nlPointers, skip (leftIndex + 1) i⟩]) ++
    ((List.range numKeys).flatMap fun i => [⟨.keys, i⟩, ⟨.nlKeys, skip leftIndex i⟩]) ++
    [⟨.nlPointers, leftIndex + 1⟩, ⟨.nlKeys, leftIndex⟩] ++
    (List.range (split - 1)).flatMap (each [.pointers, .keys, .nlPointers, .nlKeys]) ++
    each [.pointers, .nlPointers, .nlKeys] (split - 1) ++
    ((List.range' split (btreeOrder - split)).flatMap fun i =>
      each [.pointers, .keys] (i - split) ++ each [.nlPointers, .nlKeys] i) ++
    [⟨.pointers, btreeOrder - split⟩, ⟨.nlPointers, btreeOrder⟩] ++
    (List.range (btreeOrder - split + 1)).flatMap (each [.pointers])

/-- `insert_into_parent` at a parent with these keys, or without a parent, where it calls
    `insert_into_new_root`; up to the call that `split_nl_insert` ends with. -/
def parentAccesses : Option (List K) × K → List Access
  | (none, _) => [⟨.keys, 0⟩, ⟨.pointers, 0⟩, ⟨.pointers, 1⟩]
  | (some keys, key) =>
      let insertIdx := position key keys
      parentScanned key keys 0 ++
        if keys.length < btreeOrder - 1 then
          ((List.range (keys.length - insertIdx)).flatMap fun j =>
            [⟨.keys, keys.length - j⟩, ⟨.keys, keys.length - 1 - j⟩,
              ⟨.pointers, keys.length + 1 - j⟩, ⟨.pointers, keys.length - j⟩]) ++
            [⟨.keys, insertIdx⟩, ⟨.pointers, insertIdx + 1⟩]
        else splitNlAccesses insertIdx keys.length

/-! ### In bounds -/

@[simp] theorem inArrays_nil : InArrays [] := by simp [InArrays]

@[simp] theorem inArrays_cons {a : Access} {accesses : List Access} :
    InArrays (a :: accesses) ↔ a.index < a.array.size ∧ InArrays accesses := List.forall_mem_cons

@[simp] theorem inArrays_append {left right : List Access} :
    InArrays (left ++ right) ↔ InArrays left ∧ InArrays right := List.forall_mem_append

@[simp] theorem inArrays_flatMap {α : Type} {l : List α} {f : α → List Access} :
    InArrays (l.flatMap f) ↔ ∀ i ∈ l, InArrays (f i) := List.forall_mem_flatMap

@[simp] theorem inArrays_each_nil {i : Nat} : InArrays (each [] i) := inArrays_nil

@[simp] theorem inArrays_each_cons {array : ArrayName} {arrays : List ArrayName} {i : Nat} :
    InArrays (each (array :: arrays) i) ↔ i < array.size ∧ InArrays (each arrays i) :=
  inArrays_cons

theorem skip_le (gap i : Nat) : skip gap i ≤ i + 1 := by
  unfold skip
  split
  · exact Nat.le_succ i
  · exact le_rfl

omit [LinearOrder K] in
/-- A loop that tests the index first stays below `num_keys`. -/
theorem inArrays_scanned (stop : K → Bool) {keys : List K} {i : Nat}
    (h : i + keys.length < btreeOrder) : InArrays (scanned stop keys i) := by
  induction keys generalizing i with
  | nil => exact inArrays_nil
  | cons k keys ih =>
      rw [List.length_cons] at h
      rw [scanned, inArrays_cons]
      refine ⟨?_, ?_⟩
      · simp only [ArrayName.size]
        omega
      · split
        · exact inArrays_nil
        · exact ih (by omega)

/-- The loop of `insert_into_parent` reads one entry more than it counts. -/
theorem inArrays_parentScanned {key : K} {keys : List K} {i : Nat} :
    InArrays (parentScanned key keys i) ↔ i + position key keys < btreeOrder - 1 := by
  induction keys generalizing i with
  | nil => simp [parentScanned, position, ArrayName.size]
  | cons k keys ih =>
      rw [parentScanned, inArrays_cons, position]
      split
      · rw [ih]
        simp only [ArrayName.size]
        omega
      · simp [ArrayName.size]

theorem btreeOrder_eq : btreeOrder = 16 := rfl

theorem cut_order : cut 16 = 8 := rfl

theorem cut_pred_order : cut (16 - 1) = 8 := rfl

/-- A leaf with room, or with the key. -/
theorem inArrays_leafAccesses {key : K} {keys : List K} (hkeys : keys.length < btreeOrder)
    (h : keys.length < btreeOrder - 1 ∨ (Index.leafHasKey keys key).isSome) :
    InArrays (leafAccesses key keys) := by
  have hscan : ∀ stop : K → Bool, InArrays (scanned stop keys 0) := fun stop =>
    inArrays_scanned stop (by omega)
  rw [leafAccesses, inArrays_append]
  refine ⟨hscan _, ?_⟩
  cases hhas : Index.leafHasKey keys key with
  | some idx =>
      obtain ⟨hlt, -⟩ := List.findIdx?_eq_some_iff_getElem.mp hhas
      simp only [inArrays_cons, inArrays_nil, ArrayName.size, and_true]
      omega
  | none =>
      have hroom : keys.length < btreeOrder - 1 := by
        rcases h with h | h
        · exact h
        · rw [hhas] at h
          cases h
      have hpos := position_le_length key keys
      simp only [inArrays_append, inArrays_flatMap, inArrays_each_cons, inArrays_each_nil,
        ArrayName.size, btreeOrder_eq, List.mem_range, and_true] at hroom ⊢
      refine ⟨⟨hscan _, fun j hj => ?_⟩, ?_⟩
      · omega
      · omega

/-- A full leaf. -/
theorem inArrays_splitLfAccesses {key : K} {keys : List K} (hkeys : keys.length = btreeOrder - 1) :
    InArrays (splitLfAccesses key keys) := by
  have hpos := position_le_length key keys
  have hskip := skip_le (position key keys)
  have hscan : InArrays (scanned (¬ · < key) keys 0) := inArrays_scanned _ (by
    rw [hkeys, btreeOrder_eq]
    omega)
  simp only [btreeOrder_eq] at hkeys
  simp only [splitLfAccesses, inArrays_append, inArrays_flatMap, inArrays_each_cons,
    inArrays_each_nil, inArrays_cons, inArrays_nil, ArrayName.size, cut_pred_order,
    btreeOrder_eq, List.mem_range, List.mem_range'_1, and_true, hkeys]
  refine ⟨⟨⟨⟨⟨⟨⟨hscan, fun i hi => ?_⟩, ?_⟩, fun i hi => ?_⟩, fun i hi => ?_⟩, fun i hi => ?_⟩,
    fun i hi => ?_⟩, by decide⟩
  · have := hskip i
    omega
  · omega
  · omega
  · omega
  · omega
  · omega

/-- A full inner node. -/
theorem inArrays_splitNlAccesses {leftIndex numKeys : Nat} (hkeys : numKeys = btreeOrder - 1)
    (hleft : leftIndex ≤ numKeys) : InArrays (splitNlAccesses leftIndex numKeys) := by
  have hskip := skip_le leftIndex
  have hskip' := skip_le (leftIndex + 1)
  simp only [btreeOrder_eq] at hkeys
  simp only [splitNlAccesses, inArrays_append, inArrays_flatMap, inArrays_each_cons,
    inArrays_each_nil, inArrays_cons, inArrays_nil, ArrayName.size, cut_order, btreeOrder_eq,
    List.mem_range, List.mem_range'_1, and_true, hkeys]
  refine ⟨⟨⟨⟨⟨⟨⟨fun i hi => ?_, fun i hi => ?_⟩, ?_⟩, fun i hi => ?_⟩, by decide⟩, fun i hi => ?_⟩,
    by decide⟩, fun i hi => ?_⟩
  · have := hskip' i
    omega
  · have := hskip i
    omega
  · omega
  · omega
  · omega
  · omega

/-- A call of `insert_into_parent` that does not meet a full parent all of whose keys are below
    the new one. -/
def RoomAbove : Option (List K) × K → Prop
  | (none, _) => True
  | (some keys, key) => ¬ (keys.length = btreeOrder - 1 ∧ ∀ k ∈ keys, k < key)

theorem position_eq_length {key : K} {keys : List K} :
    position key keys = keys.length ↔ ∀ k ∈ keys, k < key := by
  induction keys with
  | nil => simp [position]
  | cons k keys ih =>
      rw [position, List.forall_mem_cons, List.length_cons]
      split
      · rename_i hlt
        rw [Nat.add_right_cancel_iff, ih]
        exact ⟨fun h => ⟨hlt, h⟩, And.right⟩
      · rename_i hnot
        exact ⟨fun h => absurd h (Nat.succ_ne_zero _).symm, fun h => absurd h.1 hnot⟩

/-- The only index outside an array is the one that the loop of `insert_into_parent` reads behind
    a full parent. -/
theorem inArrays_parentAccesses {call : Option (List K) × K}
    (hkeys : ∀ keys ∈ call.1, keys.length < btreeOrder) :
    InArrays (parentAccesses call) ↔ RoomAbove call := by
  obtain ⟨parent, key⟩ := call
  cases parent with
  | none => simp [parentAccesses, RoomAbove, ArrayName.size, btreeOrder_eq]
  | some keys =>
      have hlt := hkeys keys rfl
      have hpos := position_le_length key keys
      rw [parentAccesses, inArrays_append, inArrays_parentScanned, RoomAbove,
        ← position_eq_length]
      constructor
      · rintro ⟨hscan, -⟩ ⟨hfull, hall⟩
        omega
      · intro hroom
        refine ⟨by omega, ?_⟩
        split
        · rename_i hspace
          simp only [inArrays_append, inArrays_flatMap, inArrays_cons, inArrays_nil,
            ArrayName.size, btreeOrder_eq, List.mem_range, and_true] at hspace ⊢
          exact ⟨fun j hj => by omega, by omega⟩
        · rename_i hfull
          exact inArrays_splitNlAccesses (by omega) hpos

end Functions

/-! ### The accesses of an insertion -/

namespace Index

section Ordered

variable [LinearOrder K]

/-- `find_leaf` from a node on. -/
def descentAccesses (key : K) (s : Index K I) : (fuel : Nat) → (c : Nat) → List Access
  | 0, _ => []
  | fuel + 1, c =>
      match s.nodes c with
      | none => []
      | some n =>
          match n.pointers with
          | .items _ => []
          | .nodes ids =>
              scanned (key < ·) n.keys 0 ++ ⟨.pointers, slot key n.keys⟩ ::
                match ids[slot key n.keys]? with
                | none => []
                | some child => descentAccesses key s fuel child

/-- `split_lf_insert` up to the call it ends with: the separator to hand up and the new leaf. -/
def splitLf (s : Index K I) (leaf : Nat) (key : K) (item : I) : Option (Index K I × K × Nat) := do
  let (s, newLeaf) := s.makeNode (.items [])
  let n ← s.nodes leaf
  match n.pointers with
  | .nodes _ => none
  | .items chains =>
      if n.keys.length = btreeOrder - 1 then
        let insertionIndex := position key n.keys
        let tempKeys := n.keys.insertIdx insertionIndex key
        let tempPointers := chains.insertIdx insertionIndex [item]
        let split := cut (btreeOrder - 1)
        let newKey ← tempKeys[split]?
        let s := s.setNode newLeaf ⟨tempKeys.drop split, .items (tempPointers.drop split),
          n.parent, n.next⟩
        let s := s.setNode leaf { n with
          keys := tempKeys.take split
          pointers := .items (tempPointers.take split)
          next := some newLeaf }
        some (s, newKey, newLeaf)
      else none

/-- The calls of `insert_into_parent`, with the keys of the parent that each of them finds. -/
def parentCalls : (fuel : Nat) → Index K I → (left : Nat) → (key : K) → (right : Nat) →
    List (Option (List K) × K)
  | 0, _, _, _, _ => []
  | fuel + 1, s, left, key, right =>
      match s.nodes left with
      | none => []
      | some nleft =>
          match nleft.parent with
          | none => [(none, key)]
          | some parent =>
              match s.nodes parent with
              | none => []
              | some n =>
                  (some n.keys, key) ::
                    match s.parentStep parent key right with
                    | some (s, some (kPrime, newNode)) => parentCalls fuel s parent kPrime newNode
                    | _ => []

/-- The calls that inserting at a leaf leads to. -/
def leafCalls (fuel : Nat) (s : Index K I) (leaf : Nat) (key : K) (item : I) :
    List (Option (List K) × K) :=
  match s.splitLf leaf key item with
  | none => []
  | some (s, newKey, newLeaf) => parentCalls fuel s leaf newKey newLeaf

/-- The part of `index_insert` that changes nodes. -/
def insertAtAccesses (fuel : Nat) (s : Index K I) (leaf : Nat) (key : K) (item : I) :
    List Access :=
  match s.nodes leaf with
  | none => []
  | some n =>
      (if n.keys.length < btreeOrder - 1 then [] else scanned (· = key) n.keys 0) ++
        if n.keys.length < btreeOrder - 1 ∨ (leafHasKey n.keys key).isSome then
          leafAccesses key n.keys
        else
          splitLfAccesses key n.keys ++ (s.leafCalls fuel leaf key item).flatMap parentAccesses

/-- `index_insert`. -/
def insertAccesses (s : Index K I) (op : K × I) : List Access :=
  descentAccesses op.1 s s.btreeNodeId s.root ++
    match s.findLeaf op.1 .insert with
    | some (s, some (leaf, _)) => s.insertAtAccesses s.btreeNodeId leaf op.1 op.2
    | _ => []

/-- No call of `insert_into_parent` meets a full parent all of whose keys are below the new one. -/
def InsertsInside (s : Index K I) (op : K × I) : Prop :=
  match s.findLeaf op.1 .insert with
  | some (s, some (leaf, _)) =>
      ∀ n, s.nodes leaf = some n →
        ¬ (n.keys.length < btreeOrder - 1 ∨ (leafHasKey n.keys op.1).isSome) →
        ∀ call ∈ s.leafCalls s.btreeNodeId leaf op.1 op.2, RoomAbove call
  | _ => True

theorem splitLfInsert_eq (fuel : Nat) (s : Index K I) (leaf : Nat) (key : K) (item : I) :
    s.splitLfInsert fuel leaf key item = (s.splitLf leaf key item).bind fun (s, newKey, newLeaf) =>
      insertIntoParent fuel s leaf newKey newLeaf := by
  simp only [splitLfInsert, splitLf]
  cases (s.makeNode (.items [])).1.nodes leaf with
  | none => rfl
  | some n =>
      simp only [Option.bind_eq_bind, Option.bind_some]
      cases n.pointers with
      | nodes ids => rfl
      | items chains =>
          simp only
          split
          · cases (n.keys.insertIdx (position key n.keys) key)[cut (btreeOrder - 1)]? <;> rfl
          · rfl

/-! ### No node is overfull -/

/-- Every node on the heap has no more keys than fit. -/
def NodesFit (s : Index K I) : Prop := ∀ i n, s.nodes i = some n → n.keys.length < btreeOrder

variable {s s' : Index K I}

omit [LinearOrder K] in
theorem NodesFit.setNode (h : s.NodesFit) {i : Nat} {n : BtNode K I}
    (hn : n.keys.length < btreeOrder) : (s.setNode i n).NodesFit := by
  intro j m hm
  rw [setNode_nodes] at hm
  by_cases hj : j = i
  · subst hj
    rw [Function.update_self, Option.some.injEq] at hm
    exact hm ▸ hn
  · rw [Function.update_of_ne hj] at hm
    exact h j m hm

omit [LinearOrder K] in
theorem NodesFit.makeNode (h : s.NodesFit) (pointers : Pointers I) :
    (s.makeNode pointers).1.NodesFit :=
  NodesFit.setNode (s := { s with btreeNodeId := s.btreeNodeId + 1 }) (i := s.btreeNodeId + 1)
    (n := ⟨[], pointers, none, none⟩) h (show 0 < btreeOrder by decide)

omit [LinearOrder K] in
theorem NodesFit.setParents (h : s.NodesFit) {parent : Nat} {ids : List Nat}
    (hrun : s.setParents parent ids = some s') : s'.NodesFit := by
  induction ids generalizing s with
  | nil =>
      cases hrun
      exact h
  | cons child ids ih =>
      obtain ⟨n, hn, hrest⟩ := Option.bind_eq_some_iff.mp hrun
      have hn' := h child n hn
      exact ih (h.setNode (n := { n with parent := some parent }) hn') hrest

omit [LinearOrder K] in
theorem length_take_insert (keys : List K) (i : Nat) (key : K) {split : Nat}
    (hsplit : split < btreeOrder) :
    ((keys.insertIdx i key).take split).length < btreeOrder := by
  rw [List.length_take]
  omega

omit [LinearOrder K] in
theorem length_drop_insert {keys : List K} (hkeys : keys.length < btreeOrder) (i : Nat) (key : K)
    {split : Nat} (hsplit : 1 ≤ split) :
    ((keys.insertIdx i key).drop split).length < btreeOrder := by
  have hle : (keys.insertIdx i key).length ≤ keys.length + 1 := by
    rw [List.length_insertIdx]
    split <;> omega
  rw [List.length_drop]
  omega

omit [LinearOrder K] in
theorem NodesFit.splitNl (h : s.NodesFit) {oldNode leftIndex right newNode : Nat} {key kPrime : K}
    (hrun : s.splitNl oldNode leftIndex key right = some (s', kPrime, newNode)) : s'.NodesFit := by
  obtain ⟨old, hold, hrun⟩ := Option.bind_eq_some_iff.mp hrun
  have hlt := h.makeNode (.nodes []) oldNode old hold
  cases hpointers : old.pointers with
  | items chains =>
      rw [hpointers] at hrun
      cases hrun
  | nodes ids =>
      rw [hpointers] at hrun
      obtain ⟨sep, -, hrun⟩ := Option.bind_eq_some_iff.mp hrun
      obtain ⟨s₁, hparents, hrun⟩ := Option.bind_eq_some_iff.mp hrun
      cases hrun
      refine NodesFit.setParents ?_ hparents
      refine NodesFit.setNode (NodesFit.setNode (h.makeNode _) ?_) ?_
      · exact length_drop_insert hlt _ _ (by decide)
      · exact length_take_insert _ _ _ (by decide)

theorem NodesFit.splitLf (h : s.NodesFit) {leaf newLeaf : Nat} {key newKey : K} {item : I}
    (hrun : s.splitLf leaf key item = some (s', newKey, newLeaf)) : s'.NodesFit := by
  obtain ⟨n, hn, hrun⟩ := Option.bind_eq_some_iff.mp hrun
  have hlt := h.makeNode (.items []) leaf n hn
  cases hpointers : n.pointers with
  | nodes ids =>
      rw [hpointers] at hrun
      cases hrun
  | items chains =>
      simp only [hpointers] at hrun
      split at hrun
      · obtain ⟨sep, -, hrun⟩ := Option.bind_eq_some_iff.mp hrun
        cases hrun
        refine NodesFit.setNode (NodesFit.setNode (h.makeNode _) ?_) ?_
        · exact length_drop_insert hlt _ _ (by decide)
        · exact length_take_insert _ _ _ (by decide)
      · cases hrun

theorem NodesFit.parentStep (h : s.NodesFit) {parent right : Nat} {key : K}
    {rest : Option (K × Nat)} (hrun : s.parentStep parent key right = some (s', rest)) :
    s'.NodesFit := by
  obtain ⟨n, hn, hrun⟩ := Option.bind_eq_some_iff.mp hrun
  simp only at hrun
  split at hrun
  · rename_i hroom
    cases hpointers : n.pointers with
    | items chains =>
        rw [hpointers] at hrun
        cases hrun
    | nodes ids =>
        rw [hpointers] at hrun
        cases hrun
        refine h.setNode ?_
        rw [List.length_insertIdx_of_le_length (position_le_length key n.keys)]
        omega
  · obtain ⟨⟨s₁, kPrime, newNode⟩, hsplit, heq⟩ := Option.map_eq_some_iff.mp hrun
    cases heq
    exact h.splitNl hsplit

/-- The calls of `insert_into_parent` find parents that are not overfull. -/
theorem NodesFit.parentCalls (h : s.NodesFit) {fuel left right : Nat} {key : K} :
    ∀ call ∈ parentCalls fuel s left key right, ∀ keys ∈ call.1, keys.length < btreeOrder := by
  induction fuel generalizing s left key right with
  | zero => exact fun call hcall => absurd hcall List.not_mem_nil
  | succ fuel ih =>
      intro call hcall
      rw [Index.parentCalls] at hcall
      split at hcall
      · exact absurd hcall List.not_mem_nil
      · split at hcall
        · rw [List.mem_singleton.mp hcall]
          intro keys hkeys
          cases hkeys
        · split at hcall
          · exact absurd hcall List.not_mem_nil
          · rename_i n hn
            rcases List.mem_cons.mp hcall with rfl | hcall
            · intro keys hkeys
              cases hkeys
              exact h _ n hn
            · split at hcall
              · rename_i s₁ kPrime newNode hstep
                exact ih (h.parentStep hstep) call hcall
              · exact absurd hcall List.not_mem_nil

omit [LinearOrder K] in
theorem NodesFit.insertIntoNewRoot (h : s.NodesFit) {left right : Nat} {key : K}
    (hrun : s.insertIntoNewRoot left key right = some s') : s'.NodesFit := by
  simp only [Index.insertIntoNewRoot, Option.bind_eq_bind] at hrun
  set s₁ := (s.makeNode (.nodes [left, right])).1.setNode (s.makeNode (.nodes [left, right])).2
    ⟨[key], .nodes [left, right], none, none⟩
  have h₁ : s₁.NodesFit := (h.makeNode _).setNode (show 1 < btreeOrder by decide)
  obtain ⟨nleft, hleft, hrun⟩ := Option.bind_eq_some_iff.mp hrun
  obtain ⟨nright, hright, hrun⟩ := Option.bind_eq_some_iff.mp hrun
  obtain ⟨nleft', hleft', hrun⟩ := Option.bind_eq_some_iff.mp hrun
  cases hrun
  have h₂ := h₁.setNode (i := left)
    (n := { nleft with parent := some (s.makeNode (.nodes [left, right])).2 }) (h₁ left nleft hleft)
  have h₃ := h₂.setNode (i := right)
    (n := { nright with parent := some (s.makeNode (.nodes [left, right])).2 })
    (h₂ right nright hright)
  exact h₃.setNode (i := left) (n := { nleft' with next := some right }) (h₃ left nleft' hleft')

theorem NodesFit.insertIntoParent (h : s.NodesFit) {fuel left right : Nat} {key : K}
    (hrun : insertIntoParent fuel s left key right = some s') : s'.NodesFit := by
  induction fuel generalizing s left key right with
  | zero => cases hrun
  | succ fuel ih =>
      obtain ⟨nleft, hleft, -⟩ := Option.bind_eq_some_iff.mp hrun
      cases hparent : nleft.parent with
      | none =>
          simp only [Index.insertIntoParent, hleft, hparent, Option.bind_eq_bind,
            Option.bind_some] at hrun
          exact h.insertIntoNewRoot hrun
      | some parent =>
          rw [insertIntoParent_succ hleft hparent] at hrun
          obtain ⟨⟨s₁, rest⟩, hstep, hrun⟩ := Option.bind_eq_some_iff.mp hrun
          cases rest with
          | none =>
              cases hrun
              exact h.parentStep hstep
          | some split => exact ih (h.parentStep hstep) hrun

theorem NodesFit.insertAt (h : s.NodesFit) {fuel leaf : Nat} {key : K} {item : I}
    (hrun : s.insertAt fuel leaf key item = some s') : s'.NodesFit := by
  obtain ⟨n, hn, hrun⟩ := Option.bind_eq_some_iff.mp hrun
  split at hrun
  · obtain ⟨n', hn', hrun⟩ := Option.bind_eq_some_iff.mp hrun
    obtain rfl : n = n' := Option.some.inj (hn.symm.trans hn')
    split at hrun
    · cases hrun
    · split at hrun
      · obtain ⟨chain, -, hrun⟩ := Option.bind_eq_some_iff.mp hrun
        cases hrun
        exact h.setNode (h leaf n hn)
      · simp only at hrun
        split at hrun
        · rename_i hroom
          cases hrun
          exact h.setNode hroom
        · cases hrun
  · rw [splitLfInsert_eq] at hrun
    obtain ⟨⟨s₁, newKey, newLeaf⟩, hsplit, hrun⟩ := Option.bind_eq_some_iff.mp hrun
    exact (h.splitLf hsplit).insertIntoParent hrun

omit [LinearOrder K] in
theorem NodesFit.releaseAll (h : s.NodesFit) {ids : List Nat}
    (hrun : s.releaseAll ids = some s') : s'.NodesFit := by
  induction ids generalizing s with
  | nil =>
      cases hrun
      exact h
  | cons id ids ih =>
      obtain ⟨s₁, hrelease, hrest⟩ := Option.bind_eq_some_iff.mp hrun
      rw [releaseLatch] at hrelease
      split at hrelease
      · cases hrelease
      · cases hrelease
        exact ih (s := s.setLatch id (s.latches id).drop) h hrest

/-! ### Every insertion -/

theorem slot_le_length (key : K) (keys : List K) : slot key keys ≤ keys.length := by
  induction keys with
  | nil => exact le_rfl
  | cons k keys ih =>
      rw [slot, List.length_cons]
      split
      · exact Nat.zero_le _
      · exact Nat.succ_le_succ ih

theorem NodesFit.inArrays_descent (h : s.NodesFit) (key : K) (fuel c : Nat) :
    InArrays (descentAccesses key s fuel c) := by
  induction fuel generalizing c with
  | zero => exact inArrays_nil
  | succ fuel ih =>
      rw [descentAccesses]
      split
      · exact inArrays_nil
      · rename_i n hn
        have hlt := h c n hn
        split
        · exact inArrays_nil
        · rw [inArrays_append, inArrays_cons]
          refine ⟨inArrays_scanned _ (by omega), (slot_le_length key n.keys).trans_lt hlt, ?_⟩
          split
          · exact inArrays_nil
          · exact ih _

theorem NodesFit.inArrays_insertAt (h : s.NodesFit) (fuel leaf : Nat) (key : K) (item : I) :
    InArrays (s.insertAtAccesses fuel leaf key item) ↔ ∀ n, s.nodes leaf = some n →
      ¬ (n.keys.length < btreeOrder - 1 ∨ (leafHasKey n.keys key).isSome) →
      ∀ call ∈ s.leafCalls fuel leaf key item, RoomAbove call := by
  rw [insertAtAccesses]
  cases hn : s.nodes leaf with
  | none => simp
  | some n =>
      have hlt := h leaf n hn
      have hhas : InArrays (if n.keys.length < btreeOrder - 1 then []
          else scanned (· = key) n.keys 0) := by
        split
        · exact inArrays_nil
        · exact inArrays_scanned _ (by omega)
      simp only [inArrays_append, hhas, true_and, Option.some.injEq, forall_eq']
      by_cases hroom : n.keys.length < btreeOrder - 1 ∨ (leafHasKey n.keys key).isSome
      · rw [if_pos hroom]
        exact iff_of_true (inArrays_leafAccesses hlt hroom) fun hnot => absurd hroom hnot
      · rw [if_neg hroom, inArrays_append, inArrays_flatMap]
        have hfull : n.keys.length = btreeOrder - 1 := by
          rw [not_or] at hroom
          omega
        have hcalls : ∀ call ∈ s.leafCalls fuel leaf key item,
            (InArrays (parentAccesses call) ↔ RoomAbove call) := by
          intro call hcall
          apply inArrays_parentAccesses
          rw [leafCalls] at hcall
          split at hcall
          · exact absurd hcall List.not_mem_nil
          · rename_i s₁ newKey newLeaf hsplit
            exact (h.splitLf hsplit).parentCalls call hcall
        constructor
        · rintro ⟨-, hall⟩ - call hcall
          exact (hcalls call hcall).mp (hall call hcall)
        · intro hall
          refine ⟨inArrays_splitLfAccesses hfull, fun call hcall => ?_⟩
          exact (hcalls call hcall).mpr (hall hroom call hcall)

/-- In a B+-tree without latches `find_leaf` comes to a leaf, and only the latches change. -/
theorem Represents.findLeaf {d : Nat} {t : Tree K (List I) d} (h : s.Represents t) (key : K) :
    ∃ latches leaf lastEx,
      s.findLeaf key .insert = some (s.withLatches latches, some (leaf, lastEx)) := by
  have hfree : ∀ i, s.latches i = .free := by
    intro i
    simp [h.latches, held]
  have hvalid : ∀ i, (s.latches i).Valid := fun i => (hfree i).symm ▸ Latch.valid_free
  rcases h.toShape.findLeaf_insert hvalid key with ⟨-, i, -, hheld⟩ | ⟨exs, latches, hfind, -⟩
  · exact absurd (hfree i) hheld
  · exact ⟨latches, _, _, hfind⟩

theorem Represents.inArrays_iff {d : Nat} {t : Tree K (List I) d} (h : s.Represents t)
    (hfit : s.NodesFit) (op : K × I) : InArrays (s.insertAccesses op) ↔ s.InsertsInside op := by
  obtain ⟨latches, leaf, lastEx, hfind⟩ := h.findLeaf op.1
  have hfit' : (s.withLatches latches).NodesFit := hfit
  rw [insertAccesses, InsertsInside, inArrays_append, hfind]
  have hdescent : InArrays (descentAccesses op.1 s s.btreeNodeId s.root) :=
    hfit.inArrays_descent op.1 s.btreeNodeId s.root
  exact (and_iff_right hdescent).trans (hfit'.inArrays_insertAt s.btreeNodeId leaf op.1 op.2)

theorem Represents.nodesFit_insert {d : Nat} {t : Tree K (List I) d} (h : s.Represents t)
    (hfit : s.NodesFit) {key : K} {item : I} (hrun : s.indexInsert key item = some s') :
    s'.NodesFit := by
  obtain ⟨latches, leaf, lastEx, hfind⟩ := h.findLeaf key
  have hfit' : (s.withLatches latches).NodesFit := hfit
  simp only [Index.indexInsert, hfind, Option.bind_eq_bind, Option.bind_some] at hrun
  obtain ⟨held, -, hrun⟩ := Option.bind_eq_some_iff.mp hrun
  obtain ⟨s₁, hinsert, hrun⟩ := Option.bind_eq_some_iff.mp hrun
  exact (hfit'.insertAt hinsert).releaseAll hrun

end Ordered

end Index

/-- An insertion of a sequence. -/
def insertStep (s : Index IdxKey I) (op : IdxKey × I) : Option (Index IdxKey I) :=
  s.indexInsert op.1 op.2

/-- What holds of the index after every sequence of insertions. -/
def FitTree (s : Index IdxKey I) : Prop :=
  s.NodesFit ∧ ∃ d, ∃ t : Tree IdxKey (List I) d, s.Represents t

theorem FitTree.step {s s' : Index IdxKey I} {op : IdxKey × I} (h : FitTree s)
    (hstep : insertStep s op = some s') : FitTree s' := by
  obtain ⟨hfit, d, t, hrep⟩ := h
  obtain ⟨s₁, d', t', hinsert, hrep', -⟩ :=
    hrep.indexInsert hrep.toShape.depth_lt_ninety_nine op.1 op.2
  have heq : s₁ = s' := Option.some.inj (hinsert.symm.trans hstep)
  exact ⟨hrep.nodesFit_insert hfit hstep, d', t', heq ▸ hrep'⟩

theorem fitTree_init : FitTree (Index.init : Index IdxKey I) := by
  refine ⟨fun i n hn => ?_, 0, _, init_represents⟩
  have hroot : Function.update (fun _ => none) 1 (some ⟨[], .items [], none, none⟩) i = some n := hn
  by_cases hi : i = 1
  · subst hi
    rw [Function.update_self, Option.some.injEq] at hroot
    subst hroot
    exact show 0 < btreeOrder by decide
  · rw [Function.update_of_ne hi] at hroot
    cases hroot

/-- **All arrays are accessed within their lengths if and only if no call of `insert_into_parent`
    meets a full parent all of whose keys are below the new one**, in every sequence of
    insertions. -/
theorem node_arrays_in_bounds_iff (ops : List (IdxKey × I)) :
    AllSteps insertStep (fun s op => InArrays (s.insertAccesses op)) Index.init ops ↔
      AllSteps insertStep Index.InsertsInside Index.init ops := by
  refine allSteps_congr (J := FitTree) (fun s op s' h _ hstep => h.step hstep) ?_ fitTree_init ops
  rintro s op ⟨hfit, d, t, hrep⟩
  exact hrep.inArrays_iff hfit op

/-- The keys from 0 on, in their order. -/
def ascending (n : Nat) : List (IdxKey × Nat) := (List.range n).map fun i => (Fin.ofNat _ i, i)

/-- The insertion of key 135 after those before it reads `keys[15]` of the full root. -/
theorem full_root_overread :
    ∃ s, runs insertStep Index.init (ascending 135) = some s ∧
      ⟨.keys, 15⟩ ∈ s.insertAccesses (135, 135) ∧
      ¬ ∀ ops : List (IdxKey × Nat),
        AllSteps insertStep (fun s op => InArrays (s.insertAccesses op)) Index.init ops := by
  have hread : (runs insertStep Index.init (ascending 135)).map
      (fun s => decide (⟨.keys, 15⟩ ∈ s.insertAccesses (135, 135))) = some true := by
    decide +kernel
  obtain ⟨s, hrun, hmem⟩ := Option.map_eq_some_iff.mp hread
  have hmem := of_decide_eq_true hmem
  refine ⟨s, hrun, hmem, fun hall => ?_⟩
  have hlast := ((allSteps_append (ascending 135) [(135, 135)]).mp (hall _)).2 s hrun
  exact absurd (hlast.1 _ hmem) (by decide)

end VeriTxn.IndexBTree
