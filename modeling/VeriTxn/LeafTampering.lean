import VeriTxn.IndexBTEnc

/-!
# Tampering with an untrusted leaf

Which single changes of an untrusted leaf the check of `load_child` and `load_next` sees:
none.  `get_hash` adds up the keys and the rows of a node and then returns the number of its
keys.
-/

namespace VeriTxn.IndexBTEnc

open Bytes BPlusTree IndexBTree HashIndex

/-- One place of a leaf with the value it gets. -/
inductive LeafChange where
  | key (i : Nat) (val : IdxKey)
  /-- the primary key of row `j` of key `i` -/
  | primaryKey (i j : Nat) (val : UInt64)
  | rowId (i j : Nat) (val : UInt64)
  /-- byte `k` of the data of row `j` of key `i` -/
  | dataByte (i j k : Nat) (val : Byte)

namespace LeafChange

def onRow (i j : Nat) (f : Row → Row) (n : BtNode IdxKey Row) : BtNode IdxKey Row :=
  match n.pointers with
  | .items chains => { n with pointers := .items (chains.modify i fun chain => chain.modify j f) }
  | .nodes _ => n

/-- The leaf that differs in the changed place. -/
def apply : LeafChange → BtNode IdxKey Row → BtNode IdxKey Row
  | .key i val, n => { n with keys := n.keys.modify i fun _ => val }
  | .primaryKey i j val, n => onRow i j (fun row => { row with primaryKey := val }) n
  | .rowId i j val, n => onRow i j (fun row => { row with rowId := val }) n
  | .dataByte i j k val, n =>
      onRow i j (fun row => { row with data := row.data.modify k fun _ => val }) n

theorem onRow_keys (i j : Nat) (f : Row → Row) (n : BtNode IdxKey Row) :
    (onRow i j f n).keys = n.keys := by
  unfold onRow
  split <;> rfl

/-- A single change is no change of the number of keys. -/
theorem length_keys_apply (change : LeafChange) (n : BtNode IdxKey Row) :
    (change.apply n).keys.length = n.keys.length := by
  cases change with
  | key i val => exact List.length_modify ..
  | primaryKey i j val => exact congrArg _ (onRow_keys ..)
  | rowId i j val => exact congrArg _ (onRow_keys ..)
  | dataByte i j k val => exact congrArg _ (onRow_keys ..)

end LeafChange

/-- An attacker outside the enclave replaces a node. -/
def replaceOrigin (s : IndexBTEnc) (id : Nat) (n : BtNode IdxKey Row) : IndexBTEnc :=
  { s with index := s.index.setNode id n }

/-- Every node in the cache is in the slot of its id. -/
def Named (s : IndexBTEnc) : Prop := ∀ p c, s.cache.value p = some c → p = place c.nodeId

/-- A load of a node whose number of keys is the recorded one passes its check. -/
theorem loadNode_ne_hashMismatch {s : IndexBTEnc} {id : Nat} {n : BtNode IdxKey Row}
    (hnamed : s.Named) (hnode : s.index.nodes id = some n)
    (hhash : s.verifyHash id = .ofNat n.keys.length) :
    s.loadNode (some id) id ≠ .error .hashMismatch := by
  cases hvalue : s.cache.value (place id) with
  | some c =>
      rcases loadNode_hit (some id) hvalue with ⟨cache, hload, -⟩ | ⟨-, hload⟩
      · simp [hload]
      · simp [hload]
  | none =>
      rw [loadNode_miss hvalue hnode]
      split
      case isFalse => simp
      split
      · simp
      split
      · simp
      split
      · simp
      · simp
      · rename_i cache swap hswap
        -- the evicted node is another one
        have hother : ∀ p c, swap.swapped = some (p, c) → c.nodeId ≠ id := by
          rintro p c hp rfl
          rcases LruCache.loadAndSwap_values hswap with ⟨x, hx, -⟩ | ⟨-, hr, -⟩ | ⟨-, hr, -⟩ |
            ⟨v, x, -, hne, hv, hr, -⟩
          · rw [hvalue] at hx
            cases hx
          · cases hr
          · cases hr
            cases hp
          · cases hr
            cases hp
            exact hne (hnamed p c hv)
        cases hoffload : IndexBTEnc.offload { s with cache := cache } swap.swapped with
        | error f =>
            intro hf
            cases hf
            exact offload_ne_hashMismatch _ _ hoffload
        | ok s' =>
            have hkept := offload_verifyHash hoffload hother
            have hverify : ∃ s'', s'.verify { copyOf id n with nodeId := id } = .ok s'' := by
              unfold IndexBTEnc.verify
              split
              · exact ⟨_, rfl⟩
              · split
                · exact ⟨_, rfl⟩
                · rw [if_pos]
                  · exact ⟨_, rfl⟩
                  · exact hkept.trans hhash
            obtain ⟨s'', hverify⟩ := hverify
            simp [hverify]

/-- The hash of a leaf was recorded when it was as it is now. -/
def Recorded (s : IndexBTEnc) (id : Nat) (n : BtNode IdxKey Row) : Prop :=
  s.index.nodes id = some n ∧ s.verifyHash id = btHash n.keys n.pointers

/-- `flush_out` records what it writes. -/
theorem recorded_of_flushOut {s s' : IndexBTEnc} {c : BTNode} (hid : c.origin = c.nodeId)
    (h : s.flushOut c = .ok s') : ∃ n, s'.Recorded c.nodeId n := by
  cases hcontents : c.contents with
  | nodes ids => simp [flushOut, hcontents] at h
  | items chains =>
      cases hnode : s.index.nodes c.origin with
      | none => simp [flushOut, hcontents, hnode] at h
      | some n =>
          rw [flushOut_eq hcontents hnode] at h
          split at h
          · cases h
          · cases h
            rw [hid]
            exact ⟨_, Function.update_self .., Function.update_self ..⟩

/-- The check after the first load records what was loaded. -/
theorem recorded_of_verify {s s' : IndexBTEnc} {id : Nat} {n : BtNode IdxKey Row}
    {chains : List (List Row)} (hnode : s.index.nodes id = some n)
    (hleaf : n.pointers = .items chains) (hfirst : s.verifyHash id = 0)
    (h : s.verify (copyOf id n) = .ok s') : s'.Recorded id n := by
  have hcontents : (copyOf id n).contents = .items chains := hleaf
  have hunset : s.verifyHash (copyOf id n).nodeId = 0 := hfirst
  simp only [IndexBTEnc.verify, hcontents] at h
  rw [if_pos hunset] at h
  cases h
  exact ⟨hnode, Function.update_self ..⟩

/-- `load_child(cur, i)` goes to the node `id`. -/
def ChildIs (s : IndexBTEnc) (cur : BTNode) (i id : Nat) : Prop :=
  (∃ child, cur.contents = .nodes child ∧ child[i]? = some id) ∧
    ∀ o, s.index.nodes cur.origin = some o → originChild o i = some id

/-- `load_next(cur)` goes to the node `id`. -/
def NextIs (s : IndexBTEnc) (cur : BTNode) (id : Nat) : Prop :=
  cur.next = id ∧ ∀ o, s.index.nodes cur.origin = some o → o.next = some id

theorem LeafChange.apply_next (change : LeafChange) (n : BtNode IdxKey Row) :
    (change.apply n).next = n.next := by
  have honRow : ∀ i j f, (onRow i j f n).next = n.next := by
    intro i j f
    unfold onRow
    split <;> rfl
  cases change with
  | key i val => rfl
  | primaryKey i j val => exact honRow ..
  | rowId i j val => exact honRow ..
  | dataByte i j k val => exact honRow ..

theorem LeafChange.originChild_apply (change : LeafChange) {n : BtNode IdxKey Row}
    {chains : List (List Row)} (hleaf : n.pointers = .items chains) (i : Nat) :
    originChild (change.apply n) i = none := by
  have honRow : ∀ i' j f, originChild (onRow i' j f n) i = none := by
    intro i' j f
    simp [onRow, hleaf, originChild]
  cases change with
  | key i' val => simp [LeafChange.apply, originChild, hleaf]
  | primaryKey i' j val => exact honRow ..
  | rowId i' j val => exact honRow ..
  | dataByte i' j k val => exact honRow ..

/-- **No single change of a leaf is noticed.**  Whatever leaf had its hash recorded and
    whichever one place of it is changed outside, no load of the leaf fails the comparison. -/
theorem single_change_undetected (s : IndexBTEnc) (hnamed : s.Named) (id : Nat)
    (n : BtNode IdxKey Row) (chains : List (List Row)) (hleaf : n.pointers = .items chains)
    (hrecorded : s.Recorded id n) (change : LeafChange) (cur : BTNode) :
    (∀ i, s.ChildIs cur i id →
      (s.replaceOrigin id (change.apply n)).loadChild cur i ≠ .error .hashMismatch) ∧
    (s.NextIs cur id →
      (s.replaceOrigin id (change.apply n)).loadNext cur ≠ .error .hashMismatch) := by
  have hload : (s.replaceOrigin id (change.apply n)).loadNode (some id) id ≠
      .error .hashMismatch := by
    refine loadNode_ne_hashMismatch hnamed (Function.update_self ..) ?_
    rw [change.length_keys_apply]
    exact hrecorded.2
  have hmap : ∀ (f : IndexBTEnc × BTNode → IndexBTEnc × Option BTNode)
      (x : Except Fault (IndexBTEnc × BTNode)), x ≠ .error .hashMismatch →
      x.map f ≠ .error .hashMismatch := by
    intro f x hx
    cases x with
    | ok r => simp [Except.map]
    | error f => simpa [Except.map] using hx
  constructor
  · rintro i ⟨⟨child, hchild, hi⟩, horigin⟩
    unfold loadChild
    rw [hchild]
    cases hnode : (s.replaceOrigin id (change.apply n)).index.nodes cur.origin with
    | none => simp
    | some o =>
        simp only [hi]
        split
        · simp
        · refine hmap _ _ ?_
          by_cases hcur : cur.origin = id
          · -- a leaf has no child to go to
            have ho : o = change.apply n := by
              rw [hcur] at hnode
              exact Option.some.inj (hnode.symm.trans (Function.update_self ..))
            rw [ho, change.originChild_apply hleaf]
            unfold loadNode
            split <;> simp_all
          · have ho : s.index.nodes cur.origin = some o := by
              rw [← hnode]
              exact (Function.update_of_ne hcur _ _).symm
            rw [horigin o ho]
            exact hload
  · rintro ⟨hnext, horigin⟩
    unfold loadNext
    cases hcontents : cur.contents with
    | nodes ids => simp
    | items items =>
        cases hnode : (s.replaceOrigin id (change.apply n)).index.nodes cur.origin with
        | none => simp
        | some o =>
            have ho : o.next = some id := by
              by_cases hcur : cur.origin = id
              · have heq : o = change.apply n := by
                  rw [hcur] at hnode
                  exact Option.some.inj (hnode.symm.trans (Function.update_self ..))
                rw [heq, change.apply_next]
                exact horigin n (hcur ▸ hrecorded.1)
              · refine horigin o ?_
                rw [← hnode]
                exact (Function.update_of_ne hcur _ _).symm
            simp only [ho, hnext]
            split
            · simp
            · exact hmap _ _ hload

/-- A leaf with one row, under an inner node, and its hash recorded. -/
def oneLeaf : BtNode IdxKey Row := ⟨[5], .items [[⟨5, 0, [65]⟩]], some 3, none⟩

def overLeaf : BtNode IdxKey Row := ⟨[9], .nodes [1, 2], none, none⟩

def recordedLeaf : IndexBTEnc where
  index := ⟨fun id => if id = 1 then some oneLeaf else if id = 3 then some overLeaf else none,
    fun _ => .free, 3, 3⟩
  root := copyOf 3 overLeaf
  cache := LruCache.init 100 1 4096
  verifyHash := fun id => if id = 1 then 1 else 0
  nodeBytes := 200

theorem changed_byte_undetected :
    (recordedLeaf.replaceOrigin 1 ((LeafChange.dataByte 0 0 0 66).apply oneLeaf)).loadChild
      recordedLeaf.root 0 ≠ .error .hashMismatch := by
  have hnamed : recordedLeaf.Named := by
    intro p c h
    cases h
  refine (single_change_undetected recordedLeaf hnamed 1 oneLeaf _ rfl ⟨rfl, rfl⟩
    (.dataByte 0 0 0 66) recordedLeaf.root).1 0 ⟨⟨[1, 2], rfl, rfl⟩, ?_⟩
  rintro o ⟨⟩
  rfl

/-! ### A tree of two leaves -/

/-- Sixteen rows of one byte, under the keys 0 to 15. -/
def sixteen : List (IdxKey × Row) :=
  (List.range 16).map fun i => (Fin.ofNat _ i, ⟨.ofNat i, .ofNat i, [0]⟩)

def inserted16 : Option (Index IdxKey Row) :=
  Transition.runs (fun s op => s.indexInsert op.1 op.2) Index.init sixteen

/-- The tree is loaded, its first leaf evicted, changed outside and read again. -/
def readAfter (change : LeafChange) (key : IdxKey) : Option (UInt64 × Option (List Row)) := do
  let index ← inserted16
  let s ← (loadAll index 100 65536 200).toOption
  let s ← (s.evict 1).toOption
  let n ← s.index.nodes 1
  let (_, rows) ← ((s.replaceOrigin 1 (change.apply n)).indexRead key).toOption
  pure (s.verifyHash 1, rows)

/-- The changed byte is served. -/
theorem changed_leaf_accepted :
    readAfter (.dataByte 0 0 0 1) 0 = some (8, some [⟨0, 0, [1]⟩]) := by
  decide +kernel

end VeriTxn.IndexBTEnc
