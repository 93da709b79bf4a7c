import VeriTxn.IndexEncCoherence
import VeriTxn.XorFold

/-!
# Tampering with an origin bucket

Which single changes of an untrusted bucket the check of `load_bucket` sees.  The
hash of a bucket is a sum by exclusive or over bytes, rows and nodes, so a change of
one summand always shows.  The key of a node is no summand: `BucketNode::hash` adds
it, and `BucketHeader::get_hash` adds it once more.
-/

namespace VeriTxn.HashIndex

open Bytes XorFold

/-- One place of a bucket with the value it gets. -/
inductive Change where
  /-- byte `k` of the data of row `j` of node `i` -/
  | dataByte (i j k : Nat) (val : Byte)
  | primaryKey (i j : Nat) (val : UInt64)
  | rowId (i j : Nat) (val : UInt64)
  | nodeKey (i : Nat) (val : IdxKey)

namespace Change

/-- A change of row `j` of node `i`. -/
def onRow (i j : Nat) (f : Row → Row) (nodes : Bucket) : Bucket :=
  nodes.modify i fun node => { node with items := node.items.modify j f }

/-- The bucket that differs in the changed place. -/
def apply : Change → Bucket → Bucket
  | .dataByte i j k val =>
      onRow i j fun row => { row with data := row.data.modify k fun _ => val }
  | .primaryKey i j val => onRow i j fun row => { row with primaryKey := val }
  | .rowId i j val => onRow i j fun row => { row with rowId := val }
  | .nodeKey i val => fun nodes => nodes.modify i fun node => { node with key := val }

def isNodeKey : Change → Bool
  | .nodeKey _ _ => true
  | _ => false

end Change

/-! ### What the hash sees -/

/-- The key of a node cancels out of its share of the bucket's hash. -/
theorem share_eq (node : BucketNode) : node.hash ^^^ UInt64.ofFin node.key =
    node.items.foldl (fun res row => res ^^^ row.hash) 0 := by
  rw [BucketNode.hash, foldl_xor, UInt64.xor_comm, ← UInt64.xor_assoc, UInt64.xor_self,
    UInt64.zero_xor]

theorem getHash_eq (nodes : Bucket) : getHash nodes =
    nodes.foldl (fun res node => res ^^^ node.items.foldl (fun res row => res ^^^ row.hash) 0) 0 := by
  simp only [getHash, share_eq]

theorem getHash_onRow_eq_iff (i j : Nat) (f : Row → Row) (nodes : Bucket) :
    getHash (Change.onRow i j f nodes) = getHash nodes ↔
      ∀ node, nodes[i]? = some node → ∀ row, node.items[j]? = some row →
        (f row).hash = row.hash := by
  simp only [getHash_eq, Change.onRow, foldl_xor_modify_eq_iff]

theorem onRow_eq_self_iff (i j : Nat) (f : Row → Row) (nodes : Bucket) :
    Change.onRow i j f nodes = nodes ↔
      ∀ node, nodes[i]? = some node → ∀ row, node.items[j]? = some row → f row = row := by
  rw [Change.onRow, modify_eq_self_iff]
  constructor
  · intro h node hnode
    exact (modify_eq_self_iff ..).mp (congrArg BucketNode.items (h node hnode))
  · intro h node hnode
    rw [(modify_eq_self_iff ..).mpr (h node hnode)]

/-- A change of a row shows in the hash if it shows in the hash of the row. -/
theorem getHash_onRow_ne {i j : Nat} {f : Row → Row} {nodes : Bucket}
    (hrow : ∀ row : Row, (f row).hash = row.hash → f row = row)
    (hne : Change.onRow i j f nodes ≠ nodes) :
    getHash (Change.onRow i j f nodes) ≠ getHash nodes := by
  intro heq
  refine hne ((onRow_eq_self_iff ..).mpr fun node hnode row hget => hrow row ?_)
  exact (getHash_onRow_eq_iff ..).mp heq node hnode row hget

theorem hash_dataByte {k : Nat} {val : Byte} {row : Row}
    (h : ({ row with data := row.data.modify k fun _ => val } : Row).hash = row.hash) :
    ({ row with data := row.data.modify k fun _ => val } : Row) = row := by
  have hbyte := (foldl_xor_modify_eq_iff ..).mp h
  rw [(modify_eq_self_iff ..).mpr fun x hx => UInt8.toUInt64_inj.mp (hbyte x hx)]

theorem hash_primaryKey {val : UInt64} {row : Row}
    (h : ({ row with primaryKey := val } : Row).hash = row.hash) :
    ({ row with primaryKey := val } : Row) = row := by
  simp only [Row.hash] at h
  rw [foldl_xor, foldl_xor _ (row.primaryKey ^^^ row.rowId), UInt64.xor_left_inj,
    UInt64.xor_left_inj] at h
  rw [h]

theorem hash_rowId {val : UInt64} {row : Row}
    (h : ({ row with rowId := val } : Row).hash = row.hash) :
    ({ row with rowId := val } : Row) = row := by
  simp only [Row.hash] at h
  rw [foldl_xor, foldl_xor _ (row.primaryKey ^^^ row.rowId), UInt64.xor_left_inj,
    UInt64.xor_right_inj] at h
  rw [h]

/-- A single change keeps the hash exactly if it is one of a node's key. -/
theorem getHash_apply_eq_iff {change : Change} {nodes : Bucket}
    (hne : change.apply nodes ≠ nodes) :
    getHash (change.apply nodes) = getHash nodes ↔ change.isNodeKey := by
  cases change with
  | dataByte i j k val =>
      exact iff_of_false (getHash_onRow_ne (fun row => hash_dataByte) hne) (by simp [Change.isNodeKey])
  | primaryKey i j val =>
      exact iff_of_false (getHash_onRow_ne (fun row => hash_primaryKey) hne)
        (by simp [Change.isNodeKey])
  | rowId i j val =>
      exact iff_of_false (getHash_onRow_ne (fun row => hash_rowId) hne) (by simp [Change.isNodeKey])
  | nodeKey i val =>
      refine iff_of_true ?_ rfl
      simp only [getHash_eq, Change.apply, foldl_xor_modify_eq_iff, implies_true]

theorem totalSize_onRow (i j : Nat) (f : Row → Row) (nodes : Bucket) :
    totalSize (Change.onRow i j f nodes) = totalSize nodes := by
  have hlengths : (Change.onRow i j f nodes).map (fun node => node.items.length) =
      nodes.map fun node => node.items.length := by
    rw [Change.onRow]
    induction nodes generalizing i with
    | nil => simp
    | cons node nodes ih =>
        cases i with
        | zero => simp
        | succ i => simpa using ih i
  rw [totalSize, totalSize, hlengths]

/-- A single change is no change of the number of rows. -/
theorem totalSize_apply (change : Change) (nodes : Bucket) :
    totalSize (change.apply nodes) = totalSize nodes := by
  cases change with
  | dataByte i j k val => exact totalSize_onRow ..
  | primaryKey i j val => exact totalSize_onRow ..
  | rowId i j val => exact totalSize_onRow ..
  | nodeKey i val =>
      have hlengths : ((Change.nodeKey i val).apply nodes).map (fun node => node.items.length) =
          nodes.map fun node => node.items.length := by
        rw [Change.apply]
        induction nodes generalizing i with
        | nil => simp
        | cons node nodes ih =>
            cases i with
            | zero => simp
            | succ i => simpa using ih i
      rw [totalSize, totalSize, hlengths]

/-! ### What `load_bucket` sees -/

namespace IndexEnc

/-- An attacker outside the enclave replaces an origin bucket. -/
def replaceOrigin (s : IndexEnc) (p : PageId) (nodes : Bucket) : IndexEnc :=
  { s with buckets := Function.update s.buckets p nodes }

/-- The bucket's hash is the current version in its chain. -/
def CurrentVersion (clock : Clock) (s : IndexEnc) (p : PageId) (hash : UInt64) : Prop :=
  ∃ tail, (s.verifyHash p).tail = some tail ∧ tail.value = hash ∧
    tail.commitTs ≤ clock.time s.ticks

/-- What became of the state when the evicted page is written back. -/
theorem offload_some (clock : Clock) (s : IndexEnc) (v : PageId) (x : Nat) :
    s.offload clock (some (v, x)) =
      match s.pages x with
      | none => .error .badPointer
      | some page =>
          match (s.verifyHash v).setTail (getHash page.nodes) (clock.time s.ticks) with
          | none => .error .badPointer
          | some chain =>
              if s.locked v then .error .spin
              else .ok (IndexEnc.deletePage { s with
                verifyHash := Function.update s.verifyHash v chain
                ticks := s.ticks + 1
                buckets := Function.update s.buckets v page.nodes
                locked := Function.update s.locked v false } x) := by
  cases hpage : s.pages x with
  | none => simp [IndexEnc.offload, refreshTail, IndexEnc.page, hpage, bind, Except.bind]
  | some page =>
      cases hset : (s.verifyHash v).setTail (getHash page.nodes) (clock.time s.ticks) with
      | none =>
          simp [IndexEnc.offload, refreshTail, page_eq hpage, hset, throw, throwThe,
            MonadExceptOf.throw, bind, Except.bind]
      | some chain =>
          rw [IndexEnc.offload, refreshTail_eq hpage hset, ok_bind, flushOut]
          have hpage' : IndexEnc.page { s with
              verifyHash := Function.update s.verifyHash v chain
              ticks := s.ticks + 1 } x = .ok page := page_eq hpage
          rw [hpage']
          cases hlocked : s.locked v with
          | true => simp [hset, throw, throwThe, MonadExceptOf.throw, bind, Except.bind]
          | false => simp [hset]

/-- The check of a page against a chain whose last version counts already. -/
theorem verify_of_currentVersion {clock : Clock} {s : IndexEnc} {p : PageId} {a : Nat}
    {page : Page} {hash : UInt64} (hpage : s.pages a = some page)
    (hcurrent : s.CurrentVersion clock p hash) :
    s.verify clock p a =
      if hash = getHash page.nodes then .ok { s with ticks := s.ticks + 1 }
      else .error .hashMismatch := by
  obtain ⟨tail, htail, rfl, hpast⟩ := hcurrent
  rw [IndexEnc.verify, page_eq hpage, ok_bind, HashChain.empty_eq_false htail,
    HashChain.get_of_tail htail hpast]
  simp [throw, throwThe, MonadExceptOf.throw]

/-- The state after `load_and_swap` put the copy of a bucket into the cache. -/
def placed (s : IndexEnc) (p : PageId) (cache : LruCache Nat) : IndexEnc :=
  { s with
    locked := Function.update (Function.update s.locked p true) p false
    pages := Function.update s.pages s.nextAddr (some ⟨p, s.buckets p⟩)
    nextAddr := s.nextAddr + 1
    cache := cache }

/-- `load_bucket` of a bucket that is not in the cache. -/
theorem loadBucket_miss {clock : Clock} {s : IndexEnc} {p : PageId}
    (hmiss : s.cache.value p = none) :
    s.loadBucket clock p =
      if s.cache.InRange p then
        if s.locked p then .error .spin
        else
          match s.cache.loadAndSwap p (totalSize (s.buckets p)) s.nextAddr with
          | none => .error .outOfRange
          | some (_, none) => .error .spin
          | some (cache, some swap) => do
              let s' ← (s.placed p cache).offload clock swap.swapped
              let s' ← s'.verify clock p s.nextAddr
              pure (s', s.nextAddr)
      else .error .outOfRange := by
  have hslot : s.cache.cache p = none := by simpa [LruCache.value] using hmiss
  unfold IndexEnc.loadBucket
  by_cases hrange : s.cache.InRange p
  case neg => simp [LruCache.tryLoad, hrange]
  rw [LruCache.tryLoad, if_pos hrange, if_pos hrange, hslot]
  cases hlocked : s.locked p with
  | true => simp [copyIn, hlocked, bind, Except.bind]
  | false =>
      simp only
      rw [copyIn_eq hlocked, ok_bind, swapIn_eq (Function.update_self ..)]
      simp only [Bool.false_eq_true, if_false]
      cases hswap : s.cache.loadAndSwap p (totalSize (s.buckets p)) s.nextAddr with
      | none => rfl
      | some result =>
          obtain ⟨cache, r⟩ := result
          rcases LruCache.loadAndSwap_values hswap with ⟨x, hx, -⟩ | ⟨-, rfl, -⟩ |
            ⟨-, rfl, -⟩ | ⟨v, x, -, -, -, rfl, -⟩
          · rw [hmiss] at hx
            cases hx
          · rfl
          · simp only [ok_bind, ne_eq, not_true, if_false]
            rfl
          · simp only [ok_bind, ne_eq, not_true, if_false]
            rfl

/-- The copy of the bucket is checked after the evicted page is written back, which
    touches neither the copy nor the chain it is checked against. -/
theorem offload_verify {clock : Clock} {s : IndexEnc} {p : PageId} {a : Nat} {page : Page}
    {hash : UInt64} {swapped : Option (PageId × Nat)}
    (hpage : s.pages a = some page) (hcurrent : s.CurrentVersion clock p hash)
    (hswapped : ∀ v x, swapped = some (v, x) → v ≠ p ∧ x ≠ a) {s' : IndexEnc}
    (hoffload : s.offload clock swapped = .ok s') :
    s'.verify clock p a =
      if hash = getHash page.nodes then .ok { s' with ticks := s'.ticks + 1 }
      else .error .hashMismatch := by
  cases swapped with
  | none =>
      cases hoffload
      exact verify_of_currentVersion hpage hcurrent
  | some victim =>
      obtain ⟨v, x⟩ := victim
      obtain ⟨hv, hx⟩ := hswapped v x rfl
      rw [offload_some] at hoffload
      split at hoffload
      · cases hoffload
      split at hoffload
      · cases hoffload
      split at hoffload
      · cases hoffload
      cases hoffload
      refine verify_of_currentVersion ?_ ?_
      · exact (Function.update_of_ne hx.symm _ _).trans hpage
      · obtain ⟨tail, htail, hvalue, hpast⟩ := hcurrent
        refine ⟨tail, ?_, hvalue, hpast.trans (clock.mono (Nat.le_succ s.ticks))⟩
        exact (congrArg HashChain.tail (Function.update_of_ne hv.symm _ _)).trans htail

/-- Writing back the evicted page goes the same way whatever bucket was copied in. -/
theorem offload_placed_replaceOrigin {clock : Clock} {s s' : IndexEnc} {p : PageId}
    {cache : LruCache Nat} {swapped : Option (PageId × Nat)}
    (hswapped : ∀ v x, swapped = some (v, x) → v ≠ p ∧ x ≠ s.nextAddr)
    (hoffload : (s.placed p cache).offload clock swapped = .ok s') (nodes : Bucket) :
    ∃ s'', ((s.replaceOrigin p nodes).placed p cache).offload clock swapped = .ok s'' := by
  cases swapped with
  | none => exact ⟨_, rfl⟩
  | some victim =>
      obtain ⟨v, x⟩ := victim
      obtain ⟨hv, hx⟩ := hswapped v x rfl
      rw [offload_some] at hoffload ⊢
      simp only [placed, replaceOrigin, Function.update_of_ne hx, Function.update_of_ne hv]
        at hoffload ⊢
      split at hoffload
      · cases hoffload
      split at hoffload
      · cases hoffload
      split at hoffload
      · cases hoffload
      rename_i hunlocked
      rw [if_neg hunlocked]
      exact ⟨_, rfl⟩

/-- A load of the replaced bucket gets as far as the check, and fails it if the hash of
    the replacement is another one. -/
theorem loadBucket_replaceOrigin {clock : Clock} {s : IndexEnc} {p : PageId} {hash : UInt64}
    {nodes : Bucket} {r : IndexEnc × Nat} (hmiss : s.cache.value p = none)
    (hfresh : ∀ q, s.cache.value q ≠ some s.nextAddr)
    (hcurrent : s.CurrentVersion clock p hash)
    (hsize : totalSize nodes = totalSize (s.buckets p))
    (hload : s.loadBucket clock p = .ok r) :
    (s.replaceOrigin p nodes).loadBucket clock p = .error .hashMismatch ↔
      getHash nodes ≠ hash := by
  rw [loadBucket_miss hmiss] at hload
  have hmiss' : (s.replaceOrigin p nodes).cache.value p = none := hmiss
  rw [loadBucket_miss hmiss']
  simp only [replaceOrigin, Function.update_self, hsize] at hload ⊢
  split at hload
  case isFalse => cases hload
  split at hload
  case isTrue => cases hload
  rename_i hrange hunlocked
  rw [if_pos hrange, if_neg hunlocked]
  cases hswap : s.cache.loadAndSwap p (totalSize (s.buckets p)) s.nextAddr with
  | none =>
      rw [hswap] at hload
      cases hload
  | some result =>
      obtain ⟨cache, swap⟩ := result
      cases swap with
      | none =>
          rw [hswap] at hload
          cases hload
      | some swap =>
          rw [hswap] at hload
          -- the victim is another page, and not where the copy was put
          have hswapped : ∀ v x, swap.swapped = some (v, x) → v ≠ p ∧ x ≠ s.nextAddr := by
            intro v x hvx
            rcases LruCache.loadAndSwap_values hswap with ⟨y, -, hr, -⟩ | ⟨-, hr, -⟩ |
              ⟨-, hr, -⟩ | ⟨w, y, -, hw, hy, hr, -⟩
            · cases hr
              cases hvx
            · cases hr
            · cases hr
              cases hvx
            · cases hr
              cases hvx
              exact ⟨hw, fun hx => hfresh v (hx ▸ hy)⟩
          simp only at hload ⊢
          cases hoffload : (s.placed p cache).offload clock swap.swapped with
          | error f =>
              rw [hoffload] at hload
              cases hload
          | ok s₁ =>
              obtain ⟨s₂, hoffload'⟩ := offload_placed_replaceOrigin hswapped hoffload nodes
              have hpage : ((s.replaceOrigin p nodes).placed p cache).pages s.nextAddr =
                  some ⟨p, nodes⟩ := by
                simp [placed, replaceOrigin]
              have hverify := offload_verify hpage hcurrent hswapped hoffload'
              simp only [replaceOrigin] at hoffload'
              rw [hoffload', ok_bind, hverify]
              by_cases heq : hash = getHash nodes
              · simp [heq]
              · simp [heq, Ne.symm heq, bind, Except.bind]

/-- A load after a single change of a bucket fails its hash assertion exactly if the bucket
    is not in the cache and the change is not one of the key of a node. -/
theorem single_change_detected_iff (clock : Clock) (s : IndexEnc) (p : PageId)
    (hfresh : ∀ q, s.cache.value q ≠ some s.nextAddr)
    (hcurrent : s.CurrentVersion clock p (getHash (s.buckets p))) (change : Change)
    (hne : change.apply (s.buckets p) ≠ s.buckets p)
    (hload : ∃ r, s.loadBucket clock p = .ok r) :
    (s.replaceOrigin p (change.apply (s.buckets p))).loadBucket clock p =
        .error .hashMismatch ↔
      s.cache.value p = none ∧ change.isNodeKey = false := by
  obtain ⟨r, hload⟩ := hload
  cases hvalue : s.cache.value p with
  | some cur =>
      -- the copy in the cache is returned unchecked
      have hhit : ∃ r, (s.replaceOrigin p (change.apply (s.buckets p))).loadBucket clock p =
          .ok r := by
        unfold IndexEnc.loadBucket at hload ⊢
        have hsame : (s.replaceOrigin p (change.apply (s.buckets p))).cache = s.cache := rfl
        rw [hsame]
        cases htry : s.cache.tryLoad p with
        | none =>
            rw [htry] at hload
            cases hload
        | some result =>
            obtain ⟨cache, found⟩ := result
            rw [(LruCache.tryLoad_values htry).1, hvalue]
            exact ⟨_, rfl⟩
      obtain ⟨r', hhit⟩ := hhit
      simp [hhit]
  | none =>
      rw [loadBucket_replaceOrigin hvalue hfresh hcurrent (totalSize_apply ..) hload, Ne,
        getHash_apply_eq_iff hne]
      simp

/-- A coherent index puts a new page where no page is, and the hash of a bucket that was
    evicted is the current version in its chain. -/
theorem Coherent.replaceable {clock : Clock} {plain : PageId → Bucket} {s : IndexEnc}
    (h : Coherent clock plain none none s) :
    (∀ q, s.cache.value q ≠ some s.nextAddr) ∧
      ∀ p, s.cache.value p = none → (s.verifyHash p).tail.isSome →
        s.CurrentVersion clock p (getHash (s.buckets p)) := by
  refine ⟨fun q hq => h.ne_nextAddr (h.loaded q _ hq) rfl, fun p hmiss htail => ?_⟩
  obtain ⟨tail, htail⟩ := Option.isSome_iff_exists.mp htail
  refine ⟨tail, htail, ?_, h.past p tail htail⟩
  rw [h.stored p hmiss (by simp)]
  exact h.hashed p tail (Or.inl hmiss) (by simp) htail

/-! ### One bucket evicted for another

Two buckets of one row each and room for one: the first is loaded, evicted for the
second, and changed outside before it is loaded again. -/

/-- A clock that counts its calls. -/
def counting : Clock := ⟨fun n => n, fun _ _ h => h⟩

def oneRow (p : PageId) : Bucket := [⟨Fin.ofNat _ p.2, [⟨0, 0, [0]⟩]⟩]

/-- The index after the first bucket made room for the second. -/
def evicted : Except Fault IndexEnc :=
  run counting (init oneRow 2 1 1024)
    [.indexRead 0 0, .releaseUpCache (0, 0), .indexRead 0 1, .releaseUpCache (0, 1)]

theorem evicted_ok : ∃ s, evicted = .ok s ∧ s.cache.value (0, 0) = none ∧
    s.buckets (0, 0) = oneRow (0, 0) ∧ s.verifyHash (0, 0) = ⟨[⟨0, 1⟩]⟩ ∧
    ∃ r, s.loadBucket counting (0, 0) = .ok r :=
  ⟨_, rfl, by decide, by decide, by decide, _, rfl⟩

/-- A changed byte is noticed. -/
theorem changed_byte_detected :
    ∃ s, evicted = .ok s ∧ (s.replaceOrigin (0, 0) [⟨0, [⟨0, 0, [1]⟩]⟩]).loadBucket counting (0, 0) =
      .error .hashMismatch := by
  obtain ⟨s, hs, hmiss, hbucket, hchain, hload⟩ := evicted_ok
  have hrun := (coherent_init counting oneRow 2 1 1024).run rfl
    [.indexRead 0 0, .releaseUpCache (0, 0), .indexRead 0 1, .releaseUpCache (0, 1)]
  rw [show run counting (init oneRow 2 1 1024) _ = .ok s from hs] at hrun
  obtain ⟨hfresh, hcurrent⟩ := hrun.1.replaceable
  have hdetected := single_change_detected_iff counting s (0, 0) hfresh
    (hcurrent (0, 0) hmiss (by rw [hchain]; rfl)) (.dataByte 0 0 0 1)
    (by rw [hbucket]; decide) hload
  rw [hbucket] at hdetected
  exact ⟨s, hs, hdetected.mpr ⟨hmiss, rfl⟩⟩

/-- A changed key of a node is not: the row is found under the key that the attacker
    gave it. -/
theorem changed_node_key_undetected :
    ∃ s s' a, evicted = .ok s ∧ s.cache.value (0, 0) = none ∧
      s.CurrentVersion counting (0, 0) (getHash (s.buckets (0, 0))) ∧
      (Change.nodeKey 0 2).apply (s.buckets (0, 0)) = [⟨2, [⟨0, 0, [0]⟩]⟩] ∧
      s.buckets (0, 0) = [⟨0, [⟨0, 0, [0]⟩]⟩] ∧
      (s.replaceOrigin (0, 0) ((Change.nodeKey 0 2).apply (s.buckets (0, 0)))).loadBucket
        counting (0, 0) = .ok (s', a) ∧
      s'.pages a = some ⟨(0, 0), [⟨2, [⟨0, 0, [0]⟩]⟩]⟩ :=
  ⟨_, _, _, rfl, by decide, ⟨⟨0, 1⟩, by decide, by decide, by decide⟩, by decide, by decide, rfl,
    rfl⟩

end IndexEnc

end VeriTxn.HashIndex
