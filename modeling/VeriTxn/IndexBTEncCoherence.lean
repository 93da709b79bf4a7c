import VeriTxn.IndexBTEncStatic

/-!
# The verified B+-tree is coherent

A node in the cache has the contents of its keys, and so has the untrusted node of one that is
not in the cache; the untrusted node of a leaf in the cache has some older contents.  A leaf that
was evicted is in flight until it is written back.

A call may be refused for ever by a cache that has no room, or leave the range of the cache
with too large a node id.  Neither happens if the cache has room for the whole tree.
-/

namespace VeriTxn

open Bytes BPlusTree IndexBTree HashIndex Transition

namespace IndexBTEnc

/-- The cache refuses a node: it has no room, or no slot. -/
def Refused (roomy : Prop) (f : Fault) : Prop := ¬ roomy ∧ (f = .spin ∨ f = .outOfRange)

/-- The copy of a node below the root, with the contents of its keys. -/
def IsCopy (base : Index IdxKey Row) (stored : IdxKey → List Row) (p : PageId) (c : BTNode) :
    Prop :=
  ∃ id n, p = place id ∧ id ≠ base.root ∧ Under base base.root id ∧ base.nodes id = some n ∧
    c = copyOf id (current stored n)

structure Coherent (base : Index IdxKey Row) (btreeNodeNum siz nodeBytes : Nat)
    (stored : IdxKey → List Row) (flight : Option Nat) (s : IndexBTEnc) : Prop where
  bytes : s.nodeBytes = nodeBytes
  count : s.index.btreeNodeId = base.btreeNodeId
  unlatched : ∀ id, (s.index.latches id).latchType = .none
  kept : ∀ id n, Under base base.root id → base.nodes id = some n →
    ∃ old, s.index.nodes id = some (current old n)
  written : ∀ id n, Under base base.root id → base.nodes id = some n → id ≠ base.root →
    s.cache.value (place id) = none → flight ≠ some id → s.index.nodes id = some (current stored n)
  loaded : ∀ p c, s.cache.value p = some c → IsCopy base stored p c
  root : ∃ n, base.nodes base.root = some n ∧ s.root = copyOf base.root (current stored n)
  hashed : ∀ id n, Under base base.root id → base.nodes id = some n →
    s.verifyHash id = 0 ∨ s.verifyHash id = .ofNat n.keys.length
  room : HasRoom base btreeNodeNum siz nodeBytes → 
    Fits (bytesOf base nodeBytes) base.btreeNodeId btreeNodeNum siz s.cache

section Coherent

variable {base : Index IdxKey Row} {btreeNodeNum siz nodeBytes : Nat}
  {stored : IdxKey → List Row} {flight : Option Nat} {s : IndexBTEnc}

/-- The untrusted copy of an inner node is the node. -/
theorem Coherent.inner (h : Coherent base btreeNodeNum siz nodeBytes stored flight s) {id : Nat}
    {n : BtNode IdxKey Row} {ids : List Nat} (hunder : Under base base.root id)
    (hn : base.nodes id = some n) (hids : n.pointers = .nodes ids) :
    s.index.nodes id = some n := by
  obtain ⟨old, hold⟩ := h.kept id n hunder hn
  rwa [current_nodes hids] at hold

/-- A change of the cache that keeps every value. -/
theorem Coherent.cache (h : Coherent base btreeNodeNum siz nodeBytes stored flight s)
    {cache : LruCache BTNode} (hvalues : ∀ q, cache.value q = s.cache.value q)
    (hroom : HasRoom base btreeNodeNum siz nodeBytes →
      Fits (bytesOf base nodeBytes) base.btreeNodeId btreeNodeNum siz cache) :
    Coherent base btreeNodeNum siz nodeBytes stored flight { s with cache := cache } where
  bytes := h.bytes
  count := h.count
  unlatched := h.unlatched
  kept := h.kept
  written := fun id n hunder hn hroot hmiss =>
    h.written id n hunder hn hroot ((hvalues _).symm.trans hmiss)
  loaded := fun p c hp => h.loaded p c ((hvalues p).symm.trans hp)
  root := h.root
  hashed := h.hashed
  room := hroom

/-- The number of keys of a node is recorded. -/
theorem Coherent.record (h : Coherent base btreeNodeNum siz nodeBytes stored flight s) {id : Nat}
    {n : BtNode IdxKey Row} (hn : base.nodes id = some n) : ∀ id' n', Under base base.root id' →
      base.nodes id' = some n' →
      Function.update s.verifyHash id (.ofNat n.keys.length) id' = 0 ∨
        Function.update s.verifyHash id (.ofNat n.keys.length) id' = .ofNat n'.keys.length := by
  intro id' n' hunder' hn'
  by_cases hid : id' = id
  · subst hid
    rw [hn] at hn'
    cases hn'
    exact Or.inr (Function.update_self ..)
  · rw [Function.update_of_ne hid]
    exact h.hashed id' n' hunder' hn'

/-- A node leaves the cache, or a copy takes an empty slot, or both. -/
theorem Coherent.swapped (h : Coherent base btreeNodeNum siz nodeBytes stored none s)
    {cache : LruCache BTNode} (new : Option (PageId × BTNode)) (victim : Option Nat)
    (hnew : ∀ p c, new = some (p, c) → IsCopy base stored p c)
    (hbefore : ∀ p c, cache.value p = some c → new = some (p, c) ∨ s.cache.value p = some c)
    (hgone : ∀ id, cache.value (place id) = none → victim ≠ some id →
      s.cache.value (place id) = none)
    (hroom : HasRoom base btreeNodeNum siz nodeBytes →
      Fits (bytesOf base nodeBytes) base.btreeNodeId btreeNodeNum siz cache) :
    Coherent base btreeNodeNum siz nodeBytes stored victim { s with cache := cache } where
  bytes := h.bytes
  count := h.count
  unlatched := h.unlatched
  kept := h.kept
  written := fun id n hunder hn hroot hmiss hvictim =>
    h.written id n hunder hn hroot (hgone id hmiss hvictim) (by simp)
  loaded := by
    intro p c hp
    rcases hbefore p c hp with hp | hp
    · exact hnew p c hp
    · exact h.loaded p c hp
  root := h.root
  hashed := h.hashed
  room := hroom

/-- An evicted leaf is written back, an evicted inner node is as it was. -/
theorem Coherent.offload {p : PageId} {c : BTNode}
    (h : Coherent base btreeNodeNum siz nodeBytes stored (some p.2) s)
    (hcopy : IsCopy base stored p c) :
    Outcome (fun _ => False) (Coherent base btreeNodeNum siz nodeBytes stored none)
      (s.offload (some (p, c))) := by
  obtain ⟨id, n, rfl, hroot, hunder, hn, rfl⟩ := hcopy
  obtain ⟨old, hold⟩ := h.kept id n hunder hn
  cases hpointers : n.pointers with
  | nodes ids =>
      rw [current_nodes hpointers, IndexBTEnc.offload]
      simp only [copyOf, hpointers]
      refine { h with written := ?_ }
      intro id' n' hunder' hn' hroot' hmiss _
      by_cases hid : id' = id
      · subst hid
        rw [hn] at hn'
        cases hn'
        rw [current_nodes hpointers]
        exact h.inner hunder hn hpointers
      · exact h.written id' n' hunder' hn' hroot' hmiss fun hflight =>
          hid (Option.some.inj hflight).symm
  | items chains =>
      have hcontents : (copyOf id (current stored n)).contents = .items (n.keys.map stored) := by
        rw [current_items hpointers]
        rfl
      have hnode : { current old n with
          keys := (copyOf id (current stored n)).keys
          pointers := .items (n.keys.map stored) } = current stored n := by
        rw [current_items hpointers, current_items hpointers]
        rfl
      rw [IndexBTEnc.offload]
      simp only [hcontents]
      rw [flushOut_eq hcontents hold, if_neg (not_not.mpr (h.unlatched _)), hnode]
      refine ⟨h.bytes, h.count, h.unlatched, ?_, ?_, h.loaded, h.root, ?_, h.room⟩
      · intro id' n' hunder' hn'
        by_cases hid : id' = id
        · subst hid
          rw [hn] at hn'
          cases hn'
          exact ⟨stored, Function.update_self ..⟩
        · obtain ⟨old', hold'⟩ := h.kept id' n' hunder' hn'
          exact ⟨old', (Function.update_of_ne hid _ _).trans hold'⟩
      · intro id' n' hunder' hn' hroot' hmiss _
        by_cases hid : id' = id
        · subst hid
          rw [hn] at hn'
          cases hn'
          exact Function.update_self ..
        · refine (Function.update_of_ne hid _ _).trans (h.written id' n' hunder' hn' hroot' hmiss ?_)
          exact fun hflight => hid (Option.some.inj hflight).symm
      · intro id' n' hunder' hn'
        have hkeys : (copyOf id (current stored n)).keys = n.keys := current_keys stored n
        simp only [hkeys]
        exact h.record hn id' n' hunder' hn'

/-- The check of a node that was copied in passes. -/
theorem Coherent.verify (h : Coherent base btreeNodeNum siz nodeBytes stored flight s) {id : Nat}
    {n : BtNode IdxKey Row} (hunder : Under base base.root id) (hn : base.nodes id = some n) :
    Outcome (fun _ => False) (Coherent base btreeNodeNum siz nodeBytes stored flight)
      (s.verify (copyOf id (current stored n))) := by
  have hkeys : (copyOf id (current stored n)).keys = n.keys := current_keys stored n
  unfold IndexBTEnc.verify
  split
  case h_1 => exact h
  simp only [btHash_eq, hkeys, show (copyOf id (current stored n)).nodeId = id from rfl]
  by_cases hzero : s.verifyHash id = 0
  · rw [if_pos hzero]
    exact { h with hashed := h.record hn }
  · rw [if_neg hzero, if_pos ((h.hashed id n hunder hn).resolve_left hzero)]
    exact h

/-- What follows once a node has its slot. -/
theorem Coherent.offload_verify (swapped : Option (PageId × BTNode))
    (h : Coherent base btreeNodeNum siz nodeBytes stored (swapped.map fun victim => victim.1.2) s)
    (hcopy : ∀ p c, swapped = some (p, c) → IsCopy base stored p c) {id : Nat}
    {n : BtNode IdxKey Row} (hunder : Under base base.root id) (hn : base.nodes id = some n) :
    Outcome (fun _ => False)
      (fun r => Coherent base btreeNodeNum siz nodeBytes stored none r.1 ∧
        r.2 = copyOf id (current stored n))
      (do
        let s ← s.offload swapped
        let s ← s.verify (copyOf id (current stored n))
        pure (s, copyOf id (current stored n))) := by
  have hoffload : Outcome (fun _ => False) (Coherent base btreeNodeNum siz nodeBytes stored none)
      (s.offload swapped) := by
    cases swapped with
    | none => exact h
    | some victim => exact h.offload (hcopy victim.1 victim.2 rfl)
  refine hoffload.bind fun s' hs' => ?_
  refine (hs'.verify hunder hn).bind fun s'' hs'' => ?_
  exact ⟨hs'', rfl⟩

theorem Coherent.not_refused (h : Coherent base btreeNodeNum siz nodeBytes stored flight s)
    {id : Nat} (hid : id ≤ base.btreeNodeId) (hrange : ¬ s.cache.InRange (place id)) :
    Refused (HasRoom base btreeNodeNum siz nodeBytes) .outOfRange :=
  ⟨fun hroom => hrange ((h.room hroom).inRange hroom hid), Or.inr rfl⟩

/-- A node that is in the cache. -/
theorem Coherent.loadNode_hit (h : Coherent base btreeNodeNum siz nodeBytes stored none s) {id : Nat}
    (hid : id ≤ base.btreeNodeId) {c : BTNode} (hvalue : s.cache.value (place id) = some c)
    (originNode : Option Nat) :
    Outcome (Refused (HasRoom base btreeNodeNum siz nodeBytes))
      (fun r => Coherent base btreeNodeNum siz nodeBytes stored none r.1 ∧ r.2 = c)
      (s.loadNode originNode id) := by
  unfold IndexBTEnc.loadNode
  cases htry : s.cache.tryLoad (place id) with
  | none =>
      refine h.not_refused hid fun hrange => ?_
      obtain ⟨cache, hload, -⟩ := LruCache.tryLoad_eq hrange
      rw [htry] at hload
      cases hload
  | some result =>
      obtain ⟨cache, found⟩ := result
      obtain ⟨rfl, hvalues⟩ := LruCache.tryLoad_values htry
      rw [hvalue]
      exact ⟨h.cache hvalues fun hroom => (h.room hroom).tryLoad htry, rfl⟩

/-- The slot of a node is filled from the untrusted tree. -/
theorem Coherent.loadNode_miss (tree : StaticTree base)
    (h : Coherent base btreeNodeNum siz nodeBytes stored none s) {id : Nat} {n : BtNode IdxKey Row}
    (hunder : Under base base.root id) (hn : base.nodes id = some n) (hroot : id ≠ base.root)
    (hvalue : s.cache.value (place id) = none) :
    Outcome (Refused (HasRoom base btreeNodeNum siz nodeBytes))
      (fun r => Coherent base btreeNodeNum siz nodeBytes stored none r.1 ∧
        r.2 = copyOf id (current stored n)) (s.loadNode (some id) id) := by
  have hid := (tree.bound id hunder).2
  have hnode := h.written id n hunder hn hroot hvalue (by simp)
  have hkeys : (current stored n).keys ≠ [] := by
    obtain ⟨n', hn', hkeys⟩ := tree.node id hunder
    rw [hn] at hn'
    cases hn'
    rwa [current_keys]
  have hsize : getSize s.nodeBytes (copyOf id (current stored n)) ≤ bytesOf base nodeBytes id := by
    rw [h.bytes, getSize_current, bytesOf, hn]
  rw [IndexBTEnc.loadNode_miss hvalue hnode,
    show { copyOf id (current stored n) with nodeId := id } = copyOf id (current stored n) from rfl]
  by_cases hrange : s.cache.InRange (place id)
  case neg =>
    rw [if_neg hrange]
    exact h.not_refused hid hrange
  rw [if_pos hrange, if_neg (not_not.mpr (h.unlatched id)), if_neg hkeys]
  cases hload : s.cache.loadAndSwap (place id)
      (getSize s.nodeBytes (copyOf id (current stored n))) (copyOf id (current stored n)) with
  | none => exact absurd hload (LruCache.loadAndSwap_ne_none hrange _ _)
  | some result =>
      obtain ⟨cache, swap⟩ := result
      have hroomy : HasRoom base btreeNodeNum siz nodeBytes →
          swap = some ⟨none, copyOf id (current stored n)⟩ ∧
            Fits (bytesOf base nodeBytes) base.btreeNodeId btreeNodeNum siz cache := fun hroom =>
        (h.room hroom).loadAndSwap hroom hid hvalue hsize hload
      have hcopy : ∀ p c, some (place id, copyOf id (current stored n)) = some (p, c) →
          IsCopy base stored p c := by
        rintro p c hpc
        cases hpc
        exact ⟨id, n, rfl, hroot, hunder, hn, rfl⟩
      rcases LruCache.loadAndSwap_values hload with ⟨x, hx, -⟩ | ⟨-, rfl, -⟩ | ⟨-, rfl, hvalues⟩ |
        ⟨v, x, -, hv, hx, rfl, hvalues⟩
      · rw [hvalue] at hx
        cases hx
      · refine ⟨fun hroom => ?_, Or.inl rfl⟩
        cases (hroomy hroom).1
      · -- there was room
        have hswapped : Coherent base btreeNodeNum siz nodeBytes stored none
            { s with cache := cache } := by
          refine h.swapped _ none hcopy ?_ ?_ fun hroom => (hroomy hroom).2
          · intro p c hp
            rw [hvalues p] at hp
            split at hp
            · next hpid =>
                cases hp
                exact Or.inl (hpid ▸ rfl)
            · exact Or.inr hp
          · intro id' hnone _
            rw [hvalues] at hnone
            split at hnone
            · cases hnone
            · exact hnone
        refine (Coherent.offload_verify none hswapped ?_ hunder hn).weaken fun _ => False.elim
        intro p c hpc
        cases hpc
      · -- another node made room
        have hvictim := h.loaded v x hx
        have hswapped : Coherent base btreeNodeNum siz nodeBytes stored (some v.2)
            { s with cache := cache } := by
          refine h.swapped _ (some v.2) hcopy ?_ ?_ fun hroom => (hroomy hroom).2
          · intro p c hp
            rw [hvalues p] at hp
            split at hp
            · next hpid =>
                cases hp
                exact Or.inl (hpid ▸ rfl)
            · split at hp
              · cases hp
              · exact Or.inr hp
          · intro id' hnone hid'
            rw [hvalues] at hnone
            split at hnone
            · cases hnone
            · split at hnone
              · next hv' => exact absurd (congrArg some (congrArg Prod.snd hv').symm) hid'
              · exact hnone
        refine (Coherent.offload_verify (some (v, x)) hswapped ?_ hunder hn).weaken
          fun _ => False.elim
        intro p c hpc
        cases hpc
        exact hvictim

theorem Coherent.loadNode (tree : StaticTree base)
    (h : Coherent base btreeNodeNum siz nodeBytes stored none s) {id : Nat} {n : BtNode IdxKey Row}
    (hunder : Under base base.root id) (hn : base.nodes id = some n) (hroot : id ≠ base.root) :
    Outcome (Refused (HasRoom base btreeNodeNum siz nodeBytes))
      (fun r => Coherent base btreeNodeNum siz nodeBytes stored none r.1 ∧
        r.2 = copyOf id (current stored n)) (s.loadNode (some id) id) := by
  cases hvalue : s.cache.value (place id) with
  | none => exact h.loadNode_miss tree hunder hn hroot hvalue
  | some c =>
      obtain ⟨id', n', hplace, -, -, hn', rfl⟩ := h.loaded _ c hvalue
      cases place_injective hplace
      rw [hn] at hn'
      cases hn'
      exact h.loadNode_hit (tree.bound id hunder).2 hvalue _

/-- `load_child` on the copy of an inner node. -/
theorem Coherent.loadChild (tree : StaticTree base)
    (h : Coherent base btreeNodeNum siz nodeBytes stored none s) {c id i : Nat}
    {n child : BtNode IdxKey Row} {ids : List Nat} (hunder : Under base base.root c)
    (hn : base.nodes c = some n) (hids : n.pointers = .nodes ids) (hid : ids[i]? = some id)
    (hchild : base.nodes id = some child) :
    Outcome (Refused (HasRoom base btreeNodeNum siz nodeBytes))
      (fun r => Coherent base btreeNodeNum siz nodeBytes stored none r.1 ∧
        r.2 = some (copyOf id (current stored child)))
      (s.loadChild (copyOf c (current stored n)) i) := by
  have hstep : Child base c id := ⟨n, ids, hn, hids, List.mem_of_getElem? hid⟩
  have hbelow : Under base base.root id := hunder.tail hstep
  have hpos : id ≠ 0 := Nat.pos_iff_ne_zero.mp (tree.bound id hbelow).1
  have hle : i ≤ n.keys.length := by
    obtain ⟨hlt, -⟩ := List.getElem?_eq_some_iff.mp hid
    rw [tree.width c n ids hunder hn hids] at hlt
    omega
  have horigin : originChild n i = some id := by
    rw [originChild, hids]
    simp only
    rw [if_pos hle, hid]
  rw [current_nodes hids, IndexBTEnc.loadChild]
  simp only [copyOf, hids, h.inner hunder hn hids, hid]
  rw [if_neg hpos, horigin]
  refine (h.loadNode tree hbelow hchild (tree.below c id hunder hstep)).map fun r hr => ?_
  exact ⟨hr.1, congrArg some hr.2⟩

/-- `load_next` on the copy of a leaf below the root. -/
theorem Coherent.loadNext (tree : StaticTree base)
    (h : Coherent base btreeNodeNum siz nodeBytes stored none s) {id : Nat} {n : BtNode IdxKey Row}
    {chains : List (List Row)} (hunder : Under base base.root id) (hn : base.nodes id = some n)
    (hchains : n.pointers = .items chains) :
    Outcome (Refused (HasRoom base btreeNodeNum siz nodeBytes))
      (fun r => Coherent base btreeNodeNum siz nodeBytes stored none r.1)
      (s.loadNext (copyOf id (current stored n))) := by
  obtain ⟨old, hold⟩ := h.kept id n hunder hn
  have hcontents : (copyOf id (current stored n)).contents = .items (n.keys.map stored) := by
    rw [current_items hchains]
    rfl
  have horigin : s.index.nodes (copyOf id (current stored n)).origin = some (current old n) := hold
  unfold IndexBTEnc.loadNext
  simp only [hcontents, horigin, current_next]
  cases hnext : n.next with
  | none => exact h
  | some y =>
      obtain ⟨hundery, hleafy, hleafroot⟩ := tree.next id n chains y hunder hn hchains hnext
      have hpos : y ≠ 0 := Nat.pos_iff_ne_zero.mp (tree.bound y hundery).1
      have hnexty : (copyOf id (current stored n)).next = y := by
        rw [copyOf, current_next, hnext]
        rfl
      have hroot : y ≠ base.root := by
        rintro rfl
        exact hleafroot hleafy
      obtain ⟨ny, chainsy, hny, -⟩ := hleafy
      simp only [hnexty, if_neg hpos]
      exact (h.loadNode tree hundery hny hroot).map fun r hr => hr.1

/-- The search of a key in the copies ends at its leaf. -/
theorem Coherent.findLeaf (tree : StaticTree base) (key : IdxKey) : ∀ {d fuel : Nat}
    {s : IndexBTEnc} {parent succ : Option Nat} {t : Tree IdxKey (List Row) d}
    {n : BtNode IdxKey Row}, Coherent base btreeNodeNum siz nodeBytes stored none s →
      Rep base.nodes d parent succ t → Under base base.root (t.id d) →
      base.nodes (t.id d) = some n → d < fuel →
      Outcome (Refused (HasRoom base btreeNodeNum siz nodeBytes))
        (fun r => Coherent base btreeNodeNum siz nodeBytes stored none r.1 ∧
          ∃ leaf, base.nodes (t.leafOf key d).id = some leaf ∧
            r.2 = copyOf (t.leafOf key d).id (current stored leaf))
        (IndexBTEnc.findLeaf key fuel s (copyOf (t.id d) (current stored n)))
  | 0, fuel, s, _, _, t, n, h, hrep, _, hn, hfuel => by
      obtain ⟨fuel, rfl⟩ := Nat.exists_eq_succ_of_ne_zero (by omega : fuel ≠ 0)
      have hnode : base.nodes (t.id 0) = _ := hrep
      rw [hnode] at hn
      cases hn
      rw [current_items rfl]
      exact ⟨h, _, hnode, by rw [current_items rfl]; rfl⟩
  | d + 1, fuel, s, _, _, t, n, h, hrep, hunder, hn, hfuel => by
      obtain ⟨fuel, rfl⟩ := Nat.exists_eq_succ_of_ne_zero (by omega : fuel ≠ 0)
      obtain ⟨n', ids, succ', hn', hids, hslot, hroute⟩ := Index.Rep.onRoute hrep key
      have hn'' : base.nodes (t.id (d + 1)) = some n' := hn'
      rw [hn] at hn''
      cases hn''
      obtain ⟨child, hchild, -⟩ := hroute.root
      have hbelow := hunder.tail ⟨n, ids, hn, hids, List.mem_of_getElem? hslot⟩
      have hload := h.loadChild tree hunder hn hids hslot hchild
      have hcontents : (copyOf (t.id (d + 1)) (current stored n)).contents = .nodes ids := by
        rw [current_nodes hids]
        exact hids
      have hkeys : (copyOf (t.id (d + 1)) (current stored n)).keys = n.keys :=
        current_keys stored n
      rw [IndexBTEnc.findLeaf]
      simp only [hcontents, hkeys]
      refine hload.bind fun r hr => ?_
      obtain ⟨s', c⟩ := r
      obtain ⟨hs', rfl⟩ := hr
      exact Coherent.findLeaf tree key hs' hroute hbelow hchild (by omega)

/-- Inner nodes are loaded in advance. -/
theorem Coherent.dfs (tree : StaticTree base) : ∀ {d fuel : Nat}
    {s : IndexBTEnc} {parent succ : Option Nat} {t : Tree IdxKey (List Row) d}
    {n : BtNode IdxKey Row}, Coherent base btreeNodeNum siz nodeBytes stored none s →
      Rep base.nodes d parent succ t → Under base base.root (t.id d) →
      base.nodes (t.id d) = some n → d < fuel →
      Outcome (Refused (HasRoom base btreeNodeNum siz nodeBytes))
        (Coherent base btreeNodeNum siz nodeBytes stored none)
        (IndexBTEnc.dfs fuel s (copyOf (t.id d) (current stored n)))
  | 0, fuel, s, _, _, t, n, h, hrep, _, hn, hfuel => by
      obtain ⟨fuel, rfl⟩ := Nat.exists_eq_succ_of_ne_zero (by omega : fuel ≠ 0)
      have hnode : base.nodes (t.id 0) = _ := hrep
      rw [hnode] at hn
      cases hn
      rw [current_items rfl, IndexBTEnc.dfs]
      split
      · exact h.cache (LruCache.value_release _ _) fun hroom => (h.room hroom).release _
      · exact h
  | d + 1, fuel, s, _, _, t, n, h, hrep, hunder, hn, hfuel => by
      obtain ⟨fuel, rfl⟩ := Nat.exists_eq_succ_of_ne_zero (by omega : fuel ≠ 0)
      obtain ⟨next, hnode⟩ := hrep.1
      have hn' : base.nodes (t.id (d + 1)) = _ := hnode
      rw [hn] at hn'
      cases hn'
      rw [current_nodes rfl, IndexBTEnc.dfs]
      split
      case isFalse => exact h
      refine Outcome.foldlM ?_ h
      intro s' i hi hs'
      have hwidth := tree.width _ _ _ hunder hn rfl
      rw [List.length_map] at hwidth
      have hlt : i < (Branch.children t).length := hwidth ▸ List.mem_range.mp hi
      have hid : ((Branch.children t).map (Tree.id d))[i]? =
          some ((Branch.children t)[i].id d) := by
        rw [List.getElem?_map, List.getElem?_eq_getElem hlt]
        rfl
      obtain ⟨succ', hchildRep⟩ := Rep.child hrep _ (List.getElem_mem hlt)
      obtain ⟨child, hchild, -⟩ := hchildRep.root
      have hbelow := hunder.tail ⟨_, _, hn, rfl, List.mem_of_getElem? hid⟩
      refine (hs'.loadChild tree hunder hn rfl hid hchild).bind fun r hr => ?_
      obtain ⟨s'', c⟩ := r
      obtain ⟨hs'', rfl⟩ := hr
      exact Coherent.dfs tree hs'' hchildRep hbelow hchild (by omega)

theorem leafHasKey_map {keys : List IdxKey} {key : IdxKey} (hkey : key ∈ keys)
    (stored : IdxKey → List Row) :
    ((Index.leafHasKey keys key).bind fun idx => (keys.map stored)[idx]?) = some (stored key) := by
  have hkeys : (keys.map fun k => (k, stored k)).map Prod.fst = keys := by simp [Function.comp_def]
  have hchains : (keys.map fun k => (k, stored k)).map Prod.snd = keys.map stored := by
    simp [Function.comp_def]
  have hfind := Index.find_eq_leafHasKey (keys.map fun k => (k, stored k)) key
  rw [hkeys, hchains] at hfind
  rw [← hfind]
  clear hfind hkeys hchains
  induction keys with
  | nil => cases hkey
  | cons k keys ih =>
      rw [List.map_cons, find_cons]
      by_cases hk : k = key
      · rw [if_pos hk, hk]
      · rw [if_neg hk]
        exact ih ((List.mem_cons.mp hkey).resolve_left (Ne.symm hk))

/-- A read of a key of the tree returns its rows. -/
theorem Coherent.indexRead {d : Nat} {t : Tree IdxKey (List Row) d} (hbase : base.Represents t)
    (tree : StaticTree base) (h : Coherent base btreeNodeNum siz nodeBytes stored none s)
    (key : IdxKey) :
    Outcome (Refused (HasRoom base btreeNodeNum siz nodeBytes))
      (fun r => Coherent base btreeNodeNum siz nodeBytes stored none r.1 ∧
        ∀ chain, find key (t.entries d) = some chain → r.2 = some (stored key))
      (s.indexRead key) := by
  obtain ⟨n, hn, hroot⟩ := h.root
  have hdepth : d < s.index.btreeNodeId := h.count ▸ hbase.depth_lt
  rw [hbase.root] at hn hroot
  have hfind := h.findLeaf tree key hbase.rep (hbase.root ▸ Relation.ReflTransGen.refl) hn hdepth
  obtain ⟨parent, succ, hleaf⟩ := Index.Rep.leafOf key hbase.rep
  rw [IndexBTEnc.indexRead, hroot]
  refine hfind.bind fun r hr => ?_
  obtain ⟨s', c⟩ := r
  obtain ⟨hs', leaf, hleaf', rfl⟩ := hr
  rw [hleaf] at hleaf'
  cases hleaf'
  rw [current_items rfl]
  refine ⟨hs', fun chain hchain => ?_⟩
  rw [← hbase.ordered.find_leafOf key] at hchain
  exact leafHasKey_map (mem_keys_of_find hchain) stored

theorem Coherent.nextOf (tree : StaticTree base)
    (h : Coherent base btreeNodeNum siz nodeBytes stored none s) (id : Nat) :
    Outcome (fun f => f = .notLoaded ∨ Refused (HasRoom base btreeNodeNum siz nodeBytes) f)
      (fun r => Coherent base btreeNodeNum siz nodeBytes stored none r.1) (s.nextOf id) := by
  unfold IndexBTEnc.nextOf
  cases hvalue : s.cache.value (place id) with
  | none => exact Or.inl rfl
  | some c =>
      obtain ⟨id', n, -, -, hunder, hn, rfl⟩ := h.loaded _ c hvalue
      cases hpointers : n.pointers with
      | nodes ids =>
          simp only [current_nodes hpointers, copyOf, hpointers]
          exact Or.inl rfl
      | items chains =>
          have hnext := h.loadNext tree hunder hn hpointers
          rw [current_items hpointers] at hnext ⊢
          exact hnext.weaken fun f hf => Or.inr hf

/-- A write to the copy of a leaf is a write to the contents of its key. -/
theorem Coherent.writeRow (tree : StaticTree base)
    (h : Coherent base btreeNodeNum siz nodeBytes stored none s) (id idx j : Nat)
    (data : List Byte) :
    Outcome (fun f => f = .notLoaded)
      (Coherent base btreeNodeNum siz nodeBytes (store base stored (.writeRow id idx j data)) none)
      (s.writeRow id idx j data) := by
  obtain ⟨nroot, hnroot, hroot⟩ := h.root
  have hself : Under base base.root base.root := Relation.ReflTransGen.refl
  have hrootId : s.root.nodeId = base.root := by rw [hroot]; rfl
  unfold IndexBTEnc.writeRow
  rw [hrootId]
  split
  · next hid =>
      subst hid
      have hother : ∀ id' n', Under base base.root id' → base.nodes id' = some n' →
          id' ≠ base.root → current (store base stored (.writeRow base.root idx j data)) n' =
            current stored n' := fun id' n' hunder' hn' hne =>
        current_store_of_ne tree stored hself hunder' hn' hne idx j data
      refine ⟨h.bytes, h.count, h.unlatched, h.kept, ?_, ?_, ?_, h.hashed, h.room⟩
      · intro id' n' hunder' hn' hne hmiss hflight
        rw [hother id' n' hunder' hn' hne]
        exact h.written id' n' hunder' hn' hne hmiss hflight
      · intro p c hp
        obtain ⟨id', n', rfl, hne, hunder', hn', rfl⟩ := h.loaded p c hp
        exact ⟨id', n', rfl, hne, hunder', hn', by rw [hother id' n' hunder' hn' hne]⟩
      · refine ⟨nroot, hnroot, ?_⟩
        rw [hroot]
        exact setData_copyOf tree stored hself hnroot idx j data
  · next hid =>
      cases hvalue : s.cache.value (place id) with
      | none => rfl
      | some c =>
          obtain ⟨id₁, n, hplace, -, hunder, hn, rfl⟩ := h.loaded _ c hvalue
          cases place_injective hplace
          have hother : ∀ id' n', Under base base.root id' → base.nodes id' = some n' →
              id' ≠ id → current (store base stored (.writeRow id idx j data)) n' =
                current stored n' := fun id' n' hunder' hn' hne =>
            current_store_of_ne tree stored hunder hunder' hn' hne idx j data
          refine ⟨h.bytes, h.count, h.unlatched, h.kept, ?_, ?_, ?_, h.hashed, fun hroom =>
            (h.room hroom).setValue _ _⟩
          · intro id' n' hunder' hn' hne hmiss hflight
            rw [LruCache.value_setValue, hvalue] at hmiss
            split at hmiss
            · cases hmiss
            · next hplace' =>
                rw [hother id' n' hunder' hn' fun heq => hplace' (congrArg place heq)]
                exact h.written id' n' hunder' hn' hne hmiss hflight
          · intro p c hp
            rw [LruCache.value_setValue, hvalue] at hp
            split at hp
            · next hplace' =>
                cases hp
                exact ⟨id, n, hplace', hid, hunder, hn,
                  setData_copyOf tree stored hunder hn idx j data⟩
            · next hplace' =>
                obtain ⟨id', n', rfl, hne, hunder', hn', rfl⟩ := h.loaded p c hp
                refine ⟨id', n', rfl, hne, hunder', hn', ?_⟩
                rw [hother id' n' hunder' hn' fun heq => hplace' (congrArg place heq)]
          · refine ⟨nroot, hnroot, ?_⟩
            rw [hother base.root nroot hself hnroot (Ne.symm hid)]
            exact hroot

/-- A node goes from the cache between two operations. -/
theorem Coherent.evict (h : Coherent base btreeNodeNum siz nodeBytes stored none s) (id : Nat) :
    Outcome (fun f => f = .notLoaded) (Coherent base btreeNodeNum siz nodeBytes stored none)
      (s.evict id) := by
  unfold IndexBTEnc.evict
  cases hnode : s.cache.cache (place id) with
  | none => rfl
  | some node =>
      have hvalue : s.cache.value (place id) = some node.value := by
        rw [LruCache.value, hnode, Option.map_some]
      have hcopy := h.loaded _ _ hvalue
      refine Outcome.weaken (Coherent.offload (h.swapped none (some id) ?_ ?_ ?_ ?_) hcopy)
        fun _ => False.elim
      · intro p c hp
        cases hp
      · intro p c hp
        by_cases hpid : p = place id
        · subst hpid
          simp [LruCache.value] at hp
        · right
          simpa [LruCache.value, hpid] using hp
      · intro id' hnone hne
        have hplace : place id' ≠ place id := fun heq =>
          hne (congrArg some (place_injective heq).symm)
        simpa [LruCache.value, hplace] using hnone
      · exact fun hroom => (h.room hroom).remove hroom hnode

/-- One action. -/
theorem Coherent.step {d : Nat} {t : Tree IdxKey (List Row) d} (hbase : base.Represents t)
    (tree : StaticTree base) (h : Coherent base btreeNodeNum siz nodeBytes stored none s)
    (action : Action) :
    Outcome (fun f => f = .notLoaded ∨ Refused (HasRoom base btreeNodeNum siz nodeBytes) f)
      (Coherent base btreeNodeNum siz nodeBytes (store base stored action) none)
      (s.step action) := by
  cases action with
  | indexRead key =>
      refine ((h.indexRead hbase tree key).map fun r hr => hr.1).weaken fun f hf => Or.inr hf
  | loadNext id => exact (h.nextOf tree id).map fun r hr => hr
  | writeRow id idx j data =>
      exact (h.writeRow tree id idx j data).weaken fun f hf => Or.inl hf
  | evict id => exact (h.evict id).weaken fun f hf => Or.inl hf

theorem Coherent.run {d : Nat} {t : Tree IdxKey (List Row) d} (hbase : base.Represents t)
    (tree : StaticTree base) (actions : List Action)
    (h : Coherent base btreeNodeNum siz nodeBytes stored none s) :
    Outcome (fun f => f = .notLoaded ∨ Refused (HasRoom base btreeNodeNum siz nodeBytes) f)
      (Coherent base btreeNodeNum siz nodeBytes (storeAll base stored actions) none)
      (s.run actions) := by
  induction actions generalizing s stored with
  | nil => exact h
  | cons action actions ih =>
      exact (h.step hbase tree action).bind fun s' hs' => ih hs'

/-- Before anything is loaded. -/
theorem coherent_init {d : Nat} {t : Tree IdxKey (List Row) d} {ops : List (IdxKey × Row)}
    (hbase : base.Represents t) (hholds : Holds t ops) (btreeNodeNum siz nodeBytes : Nat)
    {n : BtNode IdxKey Row} (hn : base.nodes base.root = some n) :
    Coherent base btreeNodeNum siz nodeBytes (inserted ops) none
      ⟨base, copyOf base.root n, LruCache.init btreeNodeNum 1 siz, fun _ => 0, nodeBytes⟩ := by
  have hcurrent : ∀ id m, Under base base.root id → base.nodes id = some m →
      current (inserted ops) m = m := fun id m => current_inserted hbase hholds
  refine ⟨rfl, rfl, ?_, ?_, ?_, ?_, ⟨n, hn, ?_⟩, fun _ _ _ _ => Or.inl rfl, fun _ =>
    fits_init _ _ btreeNodeNum siz⟩
  · intro id
    rw [hbase.latches]
    rfl
  · intro id m hunder hm
    exact ⟨inserted ops, (hcurrent id m hunder hm).symm ▸ hm⟩
  · intro id m hunder hm _ _ _
    exact (hcurrent id m hunder hm).symm ▸ hm
  · intro p c hp
    cases hp
  · rw [hcurrent base.root n Relation.ReflTransGen.refl hn]

/-- `load_all` on a tree with an entry. -/
theorem loadAll_coherent {d : Nat} {t : Tree IdxKey (List Row) d} {ops : List (IdxKey × Row)}
    (hbase : base.Represents t) (hholds : Holds t ops) (hops : ops ≠ [])
    (btreeNodeNum siz nodeBytes : Nat) :
    Outcome (Refused (HasRoom base btreeNodeNum siz nodeBytes))
      (Coherent base btreeNodeNum siz nodeBytes (inserted ops) none)
      (loadAll base btreeNodeNum siz nodeBytes) := by
  have tree := StaticTree.of_represents hbase hholds hops
  have hself : Under base base.root base.root := Relation.ReflTransGen.refl
  obtain ⟨n, hn, hkeys⟩ := tree.node base.root hself
  have hinit := coherent_init hbase hholds btreeNodeNum siz nodeBytes hn
  rw [loadAll, makeNode_eq hn, if_neg hkeys, IndexEnc.ok_bind]
  have hroot : copyOf base.root n = copyOf base.root (current (inserted ops) n) := by
    rw [current_inserted hbase hholds hself hn]
  rw [hroot] at hinit ⊢
  have hunder : Under base base.root (t.id d) := hbase.root ▸ hself
  rw [hbase.root] at hn hinit ⊢
  exact hinit.dfs tree hbase.rep hunder hn hbase.depth_lt

end Coherent

/-- **The verified B+-tree is coherent over a static tree.**  The untrusted tree of any
    insertions is loaded, and then keys are read, leaves followed, rows changed and nodes
    evicted in any order.  No hash assertion fails, and a read of a key that was inserted
    returns its rows, newest first, with the data last written.  A call ends otherwise only if
    the cache does not have room for the whole tree, or if the node to write to or to evict is
    not there; the empty tree has no `keys[0]` to load. -/
theorem static_tree_coherent (ops : List (IdxKey × Row)) (btreeNodeNum siz nodeBytes : Nat)
    (actions : List Action) :
    ∃ index : Index IdxKey Row,
      runs (fun s op => s.indexInsert op.1 op.2) Index.init ops = some index ∧
      Outcome
        (fun f => f = .notLoaded ∨ (f = .badPointer ∧ ops = []) ∨
          Refused (HasRoom index btreeNodeNum siz nodeBytes) f)
        (fun s => ∀ key, inserted ops key ≠ [] →
          Outcome (Refused (HasRoom index btreeNodeNum siz nodeBytes))
            (fun r => r.2 = some (storeAll index (inserted ops) actions key)) (s.indexRead key))
        (do
          let s ← loadAll index btreeNodeNum siz nodeBytes
          s.run actions) := by
  obtain ⟨index, hrun, d, t, hbase, hholds⟩ := runs_indexInsert_represents ops
  refine ⟨index, hrun, ?_⟩
  by_cases hops : ops = []
  · subst hops
    cases hrun
    exact Or.inr (Or.inl ⟨rfl, rfl⟩)
  · have tree := StaticTree.of_represents hbase hholds hops
    have hload := loadAll_coherent hbase hholds hops btreeNodeNum siz nodeBytes
    refine (hload.weaken fun f hf => Or.inr (Or.inr hf)).bind fun s hs => ?_
    have hruns := hs.run hbase tree actions
    cases hend : s.run actions with
    | error f =>
        rw [hend] at hruns
        exact hruns.imp_right Or.inr
    | ok s' =>
        rw [hend] at hruns
        intro key hkey
        have hread := hruns.indexRead hbase tree key
        cases hresult : s'.indexRead key with
        | error f =>
            rw [hresult] at hread
            exact hread
        | ok r =>
            rw [hresult] at hread
            have hfind := hholds key
            rw [if_neg hkey] at hfind
            exact hread.2 _ hfind

end IndexBTEnc

end VeriTxn
