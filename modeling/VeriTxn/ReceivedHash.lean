import VeriTxn.BucketTampering
import VeriTxn.Transition
import VeriTxn.Vaccum

/-!
# Hashes received by a read-only node

`IndexEnc::update_verify_hash` puts a hash that came from the primary into the chain of
its page, under the primary's time stamp.  The other entries of a chain are stamped by the
local clock: the first load makes one, and an eviction overwrites the last one with the
hash of the copy that leaves the cache.  Which hash is the last one therefore depends on
the order of first load, update and eviction.
-/

namespace VeriTxn

namespace HashChain

/-! ### The last item -/

theorem insertLoop_getLast {ts : Nat} {value : UInt64} {items items' : List HashItem}
    (h : insertLoop ts value items = some items') : items'.getLast? = items.getLast? := by
  induction items generalizing items' with
  | nil => cases h
  | cons i items ih =>
      rw [insertLoop] at h
      split at h
      · split at h
        · cases h
          rfl
        · cases h
      · split at h
        · cases h
          simp [List.getLast?_cons]
        · obtain ⟨rest, hrest, rfl⟩ := Option.map_eq_some_iff.mp h
          rw [List.getLast?_cons, List.getLast?_cons, ih hrest]

/-- `insert` changes the last item only if the new one counts from later on. -/
theorem tail_insert {c c' : HashChain} {ts : Nat} {value : UInt64} {tail : HashItem}
    (htail : c.tail = some tail) (h : c.insert ts value = some c') :
    c'.tail = if tail.commitTs < ts then some ⟨value, ts⟩ else some tail := by
  obtain ⟨head, hhead⟩ : ∃ head, c.items.head? = some head := by
    cases hitems : c.items with
    | nil => simp [HashChain.tail, hitems] at htail
    | cons head rest => exact ⟨head, rfl⟩
  simp only [HashChain.insert, hhead, htail] at h
  split at h
  · rename_i hlater
    cases h
    rw [if_pos hlater]
    simp [HashChain.tail]
  · rename_i hnot
    rw [if_neg hnot, ← htail]
    split at h
    · cases h
      rw [HashChain.tail, HashChain.tail, List.getLast?_cons]
      cases hlast : c.items.getLast? with
      | none => simp [HashChain.tail, hlast] at htail
      | some i => rfl
    · obtain ⟨items, hloop, rfl⟩ := Option.map_eq_some_iff.mp h
      exact insertLoop_getLast hloop

theorem tail_vaccumStep (c : HashChain) (beginTs : List Nat) :
    (c.vaccumStep beginTs).tail = c.tail := by
  have hloop : ∀ validTs, ∀ items : List HashItem,
      (vaccumLoop validTs items).getLast? = items.getLast? := by
    intro validTs items
    fun_induction vaccumLoop validTs items with
    | case1 head next rest hle ih => rw [ih, List.getLast?_cons_cons]
    | case2 head next rest hgt => rfl
    | case3 items hshort => rfl
  unfold vaccumStep
  split
  · exact hloop ..
  · rfl

end HashChain

namespace HashIndex

open Transition

namespace IndexEnc

/-! ### The operations of a read-only node -/

/-- `update_verify_hash`; `beginTs` is what `MIN_BEGIN_TS` looks at.  The page request that
    `sync_bucket_from_disk` sends changes nothing on this node. -/
def updateVerifyHash (clock : Clock) (s : IndexEnc) (p : PageId) (hash : UInt64) (ts : Nat)
    (beginTs : List Nat) : Except Fault IndexEnc := do
  let (s, _) ← s.loadBucket clock p
  match (s.verifyHash p).insert ts hash with
  | none => throw .hashMismatch
  | some chain =>
      pure (IndexEnc.releaseUpCache { s with
        verifyHash := Function.update s.verifyHash p (chain.vaccumStep beginTs) } p)

/-- A load of `p` makes room by evicting `v`. -/
def Evicts (s : IndexEnc) (p v : PageId) (x : Nat) : Prop :=
  s.cache.value p = none ∧ ∃ cache res,
    s.cache.loadAndSwap p (totalSize (s.buckets p)) s.nextAddr = some (cache, some ⟨some (v, x), res⟩)

/-- What `update_verify_hash` does when it returns. -/
theorem updateVerifyHash_ok {clock : Clock} {s s' : IndexEnc} {p : PageId} {hash : UInt64}
    {ts : Nat} {beginTs : List Nat} (h : s.updateVerifyHash clock p hash ts beginTs = .ok s') :
    ∃ s₁ a chain, s.loadBucket clock p = .ok (s₁, a) ∧
      (s₁.verifyHash p).insert ts hash = some chain ∧
      s' = IndexEnc.releaseUpCache { s₁ with
        verifyHash := Function.update s₁.verifyHash p (chain.vaccumStep beginTs) } p := by
  unfold updateVerifyHash at h
  cases hload : s.loadBucket clock p with
  | error f =>
      rw [hload] at h
      cases h
  | ok r =>
      obtain ⟨s₁, a⟩ := r
      rw [hload, ok_bind] at h
      dsimp only at h
      split at h
      · cases h
      · rename_i chain hinsert
        cases h
        exact ⟨s₁, a, chain, rfl, hinsert, rfl⟩

/-! ### What a load does to the chains -/

theorem loadBucket_ok {clock : Clock} {s s' : IndexEnc} {p : PageId} {a : Nat}
    (h : s.loadBucket clock p = .ok (s', a)) :
    (∃ cache, s.cache.value p = some a ∧ s' = { s with cache := cache } ∧
      ∀ q, cache.value q = s.cache.value q) ∨
    (s.cache.value p = none ∧ ∃ cache swapped s₁,
      s.cache.loadAndSwap p (totalSize (s.buckets p)) s.nextAddr =
        some (cache, some ⟨swapped, s.nextAddr⟩) ∧
      (s.placed p cache).offload clock swapped = .ok s₁ ∧
      s₁.verify clock p s.nextAddr = .ok s' ∧ a = s.nextAddr) := by
  cases hvalue : s.cache.value p with
  | some x =>
      unfold IndexEnc.loadBucket at h
      cases htry : s.cache.tryLoad p with
      | none =>
          rw [htry] at h
          cases h
      | some result =>
          obtain ⟨cache, found⟩ := result
          obtain ⟨rfl, hvalues⟩ := LruCache.tryLoad_values htry
          rw [htry, hvalue] at h
          cases h
          exact Or.inl ⟨cache, rfl, rfl, hvalues⟩
  | none =>
      rw [loadBucket_miss hvalue] at h
      split at h
      case isFalse => cases h
      split at h
      case isTrue => cases h
      split at h
      · cases h
      · cases h
      · rename_i cache swap hswap
        obtain ⟨swapped, res⟩ := swap
        have hres : res = s.nextAddr := by
          rcases LruCache.loadAndSwap_values hswap with ⟨x, hx, -⟩ | ⟨-, hr, -⟩ | ⟨-, hr, -⟩ |
            ⟨v, x, -, -, -, hr, -⟩
          · rw [hvalue] at hx
            cases hx
          · cases hr
          · cases hr
            rfl
          · cases hr
            rfl
        subst hres
        cases hoffload : (s.placed p cache).offload clock swapped with
        | error f =>
            simp only [hoffload] at h
            cases h
        | ok s₁ =>
            simp only [hoffload, ok_bind] at h
            cases hverify : s₁.verify clock p s.nextAddr with
            | error f =>
                rw [hverify] at h
                cases h
            | ok s₂ =>
                rw [hverify] at h
                cases h
                exact Or.inr ⟨rfl, cache, swapped, s₁, hswap, hoffload, hverify, rfl⟩

/-- The evicted page was in the cache; a page in the cache afterwards is the new one, or was
    there and was not evicted. -/
theorem loadAndSwap_resident {c cache : LruCache Nat} {p : PageId} {size a : Nat}
    {swapped : Option (PageId × Nat)} (hmiss : c.value p = none)
    (hswap : c.loadAndSwap p size a = some (cache, some ⟨swapped, a⟩)) :
    (∀ v x, swapped = some (v, x) → v ≠ p ∧ c.value v = some x) ∧
      ∀ q y, cache.value q = some y → q = p ∧ y = a ∨
        q ≠ p ∧ c.value q = some y ∧ ∀ x, swapped ≠ some (q, x) := by
  rcases LruCache.loadAndSwap_values hswap with ⟨y, hy, -⟩ | ⟨-, hr, -⟩ | ⟨-, hr, hvalues⟩ |
    ⟨v, x, -, hv, hx, hr, hvalues⟩
  · rw [hmiss] at hy
    cases hy
  · cases hr
  · cases hr
    refine ⟨fun v x hvx => (nomatch hvx), fun q y hq => ?_⟩
    rw [hvalues] at hq
    split at hq
    · cases hq
      exact Or.inl ⟨by assumption, rfl⟩
    · exact Or.inr ⟨by assumption, hq, fun x hx => (nomatch hx)⟩
  · cases hr
    refine ⟨fun w y hwy => ?_, fun q y hq => ?_⟩
    · cases hwy
      exact ⟨hv, hx⟩
    · rw [hvalues] at hq
      split at hq
      · cases hq
        exact Or.inl ⟨by assumption, rfl⟩
      · split at hq
        · cases hq
        · rename_i hqp hqv
          refine Or.inr ⟨hqp, hq, fun y hy => ?_⟩
          cases hy
          exact hqv rfl

/-- Writing back the evicted page puts its hash at the end of its chain. -/
theorem offload_ok {clock : Clock} {s s' : IndexEnc} {swapped : Option (PageId × Nat)}
    (h : s.offload clock swapped = .ok s') :
    s.ticks ≤ s'.ticks ∧ s'.cache = s.cache ∧ s'.nextAddr = s.nextAddr ∧
    (∀ y, (∀ v x, swapped = some (v, x) → x ≠ y) → s'.pages y = s.pages y) ∧
    (∀ q, (∀ x, swapped ≠ some (q, x)) → s'.verifyHash q = s.verifyHash q) ∧
    (∀ q x, swapped = some (q, x) → ∃ page, s.pages x = some page ∧
      (s'.verifyHash q).tail = some ⟨getHash page.nodes, clock.time s.ticks⟩) := by
  cases swapped with
  | none =>
      cases h
      refine ⟨Nat.le_refl _, rfl, rfl, fun _ _ => rfl, fun _ _ => rfl, fun q x hx => ?_⟩
      cases hx
  | some victim =>
      obtain ⟨v, x⟩ := victim
      rw [offload_some] at h
      split at h
      case h_1 => cases h
      rename_i page hpage
      split at h
      case h_1 => cases h
      rename_i chain hset
      split at h
      case isTrue => cases h
      cases h
      refine ⟨Nat.le_succ _, rfl, rfl, fun y hy => ?_, fun q hq => ?_, fun q y hqy => ?_⟩
      · exact Function.update_of_ne (hy v x rfl).symm _ _
      · have hqv : q ≠ v := by
          rintro rfl
          exact hq x rfl
        exact Function.update_of_ne hqv _ _
      · cases hqy
        refine ⟨page, hpage, ?_⟩
        exact (congrArg HashChain.tail (Function.update_self ..)).trans (HashChain.tail_setTail hset)

/-- The check either starts the chain of the page or leaves it alone. -/
theorem verify_tail {clock : Clock} {s s' : IndexEnc} {p : PageId} {a : Nat} {page : Page}
    (hpage : s.pages a = some page) (h : s.verify clock p a = .ok s') :
    s'.ticks = s.ticks + 1 ∧ s'.cache = s.cache ∧ s'.nextAddr = s.nextAddr ∧
      (∀ q, q ≠ p → s'.verifyHash q = s.verifyHash q) ∧
      (s'.verifyHash p).tail = match (s.verifyHash p).tail with
        | some tail => some tail
        | none => some ⟨getHash page.nodes, clock.time s.ticks⟩ := by
  rw [IndexEnc.verify, page_eq hpage, ok_bind] at h
  cases htail : (s.verifyHash p).tail with
  | none =>
      have hempty : HashChain.new.empty = true := rfl
      rw [HashChain.eq_new_of_empty htail, if_pos hempty, HashChain.insert_new] at h
      cases h
      refine ⟨rfl, rfl, rfl, fun q hq => Function.update_of_ne hq _ _, ?_⟩
      exact congrArg HashChain.tail (Function.update_self p (HashChain.mk _) s.verifyHash)
  | some tail =>
      rw [HashChain.empty_eq_false htail, if_neg (by simp)] at h
      split at h
      · cases h
        exact ⟨rfl, rfl, rfl, fun _ _ => rfl, htail⟩
      · cases h

/-- What the proofs need of a node: its pages are at addresses already given out and have
    been checked, and no chain is ahead of the clock. -/
structure Sound (clock : Clock) (s : IndexEnc) : Prop where
  fresh : ∀ q a, s.cache.value q = some a → a < s.nextAddr
  chained : ∀ q a, s.cache.value q = some a → (s.verifyHash q).tail.isSome
  past : ∀ q tail, (s.verifyHash q).tail = some tail → tail.commitTs ≤ clock.time s.ticks

/-- What a load of `p` does to the last items of the chains. -/
structure Loaded (clock : Clock) (s s' : IndexEnc) (p : PageId) : Prop where
  ticks : s.ticks ≤ s'.ticks
  other : ∀ q, q ≠ p → (∀ x, ¬ s.Evicts p q x) → (s'.verifyHash q).tail = (s.verifyHash q).tail
  evicted : ∀ q x, s.Evicts p q x → q ≠ p ∧ ∃ page, s.pages x = some page ∧
    (s'.verifyHash q).tail = some ⟨getHash page.nodes, clock.time s.ticks⟩
  known : ∀ tail, (s.verifyHash p).tail = some tail → (s'.verifyHash p).tail = some tail
  first : (s.verifyHash p).tail = none → ∃ t, clock.time s.ticks ≤ t ∧
    (s'.verifyHash p).tail = some ⟨getHash (s.buckets p), t⟩

theorem Sound.loadBucket {clock : Clock} {s s' : IndexEnc} {p : PageId} {a : Nat}
    (h : Sound clock s) (hload : s.loadBucket clock p = .ok (s', a)) :
    Loaded clock s s' p ∧ Sound clock s' := by
  rcases loadBucket_ok hload with ⟨cache, hhit, rfl, hvalues⟩ |
    ⟨hmiss, cache, swapped, s₁, hswap, hoffload, hverify, rfl⟩
  · refine ⟨⟨Nat.le_refl _, fun q _ _ => rfl, fun q x hx => ?_, fun tail ht => ht, fun hnone => ?_⟩,
      fun q x hq => h.fresh q x (hvalues q ▸ hq), fun q x hq => h.chained q x (hvalues q ▸ hq),
      h.past⟩
    · rw [hx.1] at hhit
      cases hhit
    · have hsome := h.chained p a hhit
      rw [hnone] at hsome
      cases hsome
  · have hevicts : ∀ q x, s.Evicts p q x ↔ swapped = some (q, x) := by
      intro q x
      constructor
      · rintro ⟨-, cache', res, hswap'⟩
        rw [hswap] at hswap'
        cases hswap'
        rfl
      · rintro rfl
        exact ⟨hmiss, cache, _, hswap⟩
    obtain ⟨hvictim, hresident⟩ := loadAndSwap_resident hmiss hswap
    obtain ⟨hticks, hsame, hnext, hpages, hchains, hgone⟩ := offload_ok hoffload
    have hpage : s₁.pages s.nextAddr = some ⟨p, s.buckets p⟩ := by
      rw [hpages]
      · exact Function.update_self ..
      · intro v x hvx
        exact Nat.ne_of_lt (h.fresh v x (hvictim v x hvx).2)
    have hown : s₁.verifyHash p = s.verifyHash p :=
      hchains p fun x hx => (hvictim p x hx).1 rfl
    obtain ⟨hticks', hsame', hnext', hothers, htail'⟩ := verify_tail hpage hverify
    rw [hown] at htail'
    have hlate : ∀ n, n ≤ s₁.ticks → clock.time n ≤ clock.time s'.ticks := by
      intro n hn
      rw [hticks']
      exact clock.mono (Nat.le_succ_of_le hn)
    refine ⟨⟨hticks' ▸ Nat.le_succ_of_le hticks, ?_, ?_, ?_, ?_⟩, ?_, ?_, ?_⟩
    · intro q hq hnot
      rw [hothers q hq, hchains q fun x hx => hnot x ((hevicts q x).mpr hx)]
      rfl
    · intro q x hx
      have hswapped := (hevicts q x).mp hx
      obtain ⟨hq, hvalue⟩ := hvictim q x hswapped
      obtain ⟨page, hx, htail⟩ := hgone q x hswapped
      refine ⟨hq, page, ?_, ?_⟩
      · rw [← hx]
        exact (Function.update_of_ne (Nat.ne_of_lt (h.fresh q x hvalue)) _ _).symm
      · rw [hothers q hq]
        exact htail
    · intro tail htail
      rw [htail', htail]
    · intro hnone
      refine ⟨clock.time s₁.ticks, clock.mono hticks, ?_⟩
      rw [htail', hnone]
    · intro q y hq
      rw [hsame', hsame] at hq
      rw [hnext', hnext]
      rcases hresident q y hq with ⟨-, rfl⟩ | ⟨-, hold, -⟩
      · exact Nat.lt_succ_self _
      · exact Nat.lt_succ_of_lt (h.fresh q y hold)
    · intro q y hq
      rw [hsame', hsame] at hq
      rcases hresident q y hq with ⟨rfl, -⟩ | ⟨hqp, hold, hnot⟩
      · rw [htail']
        split <;> rfl
      · rw [hothers q hqp, hchains q hnot]
        exact h.chained q y hold
    · intro q tail htail
      by_cases hqp : q = p
      · subst hqp
        rw [htail'] at htail
        split at htail
        · cases htail
          rename_i hbefore
          exact (h.past q _ hbefore).trans (hlate s.ticks hticks)
        · cases htail
          exact hlate s₁.ticks (Nat.le_refl _)
      · rw [hothers q hqp] at htail
        by_cases hout : ∃ x, swapped = some (q, x)
        · obtain ⟨x, hx⟩ := hout
          obtain ⟨page, -, hnew⟩ := hgone q x hx
          rw [htail] at hnew
          cases hnew
          exact hlate s.ticks hticks
        · rw [hchains q fun x hx => hout ⟨x, hx⟩] at htail
          exact (h.past q _ htail).trans (hlate s.ticks hticks)

/-- A bucket that is loaded has the hash that is the current version in its chain. -/
theorem Sound.getHash_of_loadBucket {clock : Clock} {s s' : IndexEnc} {p : PageId} {a : Nat}
    {hash : UInt64} (h : Sound clock s) (hmiss : s.cache.value p = none)
    (hcurrent : s.CurrentVersion clock p hash) (hload : s.loadBucket clock p = .ok (s', a)) :
    getHash (s.buckets p) = hash := by
  rcases loadBucket_ok hload with ⟨cache, hhit, -⟩ |
    ⟨-, cache, swapped, s₁, hswap, hoffload, hverify, rfl⟩
  · rw [hmiss] at hhit
    cases hhit
  · have hpage : (s.placed p cache).pages s.nextAddr = some ⟨p, s.buckets p⟩ :=
      Function.update_self ..
    have hswapped : ∀ v x, swapped = some (v, x) → v ≠ p ∧ x ≠ s.nextAddr := by
      intro v x hvx
      obtain ⟨hv, hx⟩ := (loadAndSwap_resident hmiss hswap).1 v x hvx
      exact ⟨hv, Nat.ne_of_lt (h.fresh v x hx)⟩
    have hcheck := offload_verify hpage hcurrent hswapped hoffload
    rw [hcheck] at hverify
    by_contra hne
    rw [if_neg (Ne.symm hne)] at hverify
    cases hverify

end IndexEnc

/-! ### Runs of a read-only node -/

open IndexEnc

/-- A node, with the newest hash it received for every page. -/
structure Node where
  index : IndexEnc
  received : PageId → Option (Nat × UInt64)

inductive Call where
  | loadBucket (p : PageId)
  | updateVerifyHash (p : PageId) (hash : UInt64) (ts : Nat) (beginTs : List Nat)
  | releaseUpCache (p : PageId)
  /-- a change of the untrusted index from outside -/
  | replaceOrigin (p : PageId) (nodes : Bucket)

namespace Node

def init (contents : PageId → Bucket) (bucketCnt partCnt siz : Nat) : Node :=
  ⟨IndexEnc.init contents bucketCnt partCnt siz, fun _ => none⟩

/-- `ts` is larger than every time stamp received for the page before. -/
def Newest (n : Node) (p : PageId) (ts : Nat) : Prop :=
  ∀ r, n.received p = some r → r.1 < ts

instance (n : Node) (p : PageId) (ts : Nat) : Decidable (n.Newest p ts) :=
  inferInstanceAs (Decidable (∀ r, n.received p = some r → r.1 < ts))

def receive (n : Node) (p : PageId) (hash : UInt64) (ts : Nat) : PageId → Option (Nat × UInt64) :=
  if n.Newest p ts then Function.update n.received p (some (ts, hash)) else n.received

/-- One call, when it returns.  The local clock is never below a received time stamp. -/
def step (clock : Clock) (n : Node) : Call → Option Node
  | .loadBucket p =>
      match n.index.loadBucket clock p with
      | .ok (index, _) => some { n with index := index }
      | .error _ => none
  | .updateVerifyHash p hash ts beginTs =>
      if ts ≤ clock.time n.index.ticks then
        match n.index.updateVerifyHash clock p hash ts beginTs with
        | .ok index => some ⟨index, n.receive p hash ts⟩
        | .error _ => none
      else none
  | .releaseUpCache p => some { n with index := n.index.releaseUpCache p }
  | .replaceOrigin p nodes => some { n with index := n.index.replaceOrigin p nodes }

/-- The newest hash received for a page is the one its chain gives now, and the one the
    next reload is checked against. -/
def Adopted (clock : Clock) (n : Node) : Prop :=
  ∀ p ts hash, n.received p = some (ts, hash) →
    (n.index.verifyHash p).get (clock.time n.index.ticks) = hash ∧
    ∀ s a, n.index.cache.value p = none → n.index.loadBucket clock p = .ok (s, a) →
      getHash (n.index.buckets p) = hash

/-- A load of `p` evicts no copy whose hash is not the newest received for it. -/
def Undisturbed (n : Node) (p : PageId) : Prop :=
  ∀ q x page ts hash, n.index.Evicts p q x → n.index.pages x = some page →
    n.received q = some (ts, hash) → getHash page.nodes = hash

/-- A hash received with `ts` comes to the end of the chain of `p`, or is there already. -/
def Arrives (n : Node) (p : PageId) (hash : UInt64) (ts : Nat) : Prop :=
  match (n.index.verifyHash p).tail with
  | some tail => tail.commitTs < ts ∨ tail.value = hash
  | none => getHash (n.index.buckets p) = hash

/-- The condition on a call: it evicts no stale copy, and a hash that it receives as the
    newest is later than everything in the chain. -/
def Lasting (n : Node) : Call → Prop
  | .loadBucket p => n.Undisturbed p
  | .updateVerifyHash p hash ts _ => n.Undisturbed p ∧ (n.Newest p ts → n.Arrives p hash ts)
  | .releaseUpCache _ => True
  | .replaceOrigin _ _ => True

/-! ### One call -/

/-- The newest hash received for `q` is the last of its chain. -/
def LastAt (n : Node) (q : PageId) : Prop :=
  ∀ r, n.received q = some r → ∀ tail, (n.index.verifyHash q).tail = some tail → tail.value = r.2

/-- What every run keeps: no chain ends before the newest time stamp received for it. -/
structure Timely (clock : Clock) (n : Node) : Prop where
  sound : Sound clock n.index
  behind : ∀ q r, n.received q = some r →
    ∃ tail, (n.index.verifyHash q).tail = some tail ∧ r.1 ≤ tail.commitTs

theorem timely_init (clock : Clock) (contents : PageId → Bucket) (bucketCnt partCnt siz : Nat) :
    Timely clock (init contents bucketCnt partCnt siz) := by
  refine ⟨⟨?_, ?_, ?_⟩, ?_⟩
  · intro q a h
    cases h
  · intro q a h
    cases h
  · intro q tail h
    cases h
  · intro q r h
    cases h

theorem Timely.adopted_iff {clock : Clock} {n : Node} (h : Timely clock n) :
    n.Adopted clock ↔ ∀ q, n.LastAt q := by
  constructor
  · rintro hadopted q ⟨ts, hash⟩ hr tail htail
    rw [← (hadopted q ts hash hr).1]
    exact (HashChain.get_of_tail htail (h.sound.past q tail htail)).symm
  · intro hlast q ts hash hr
    obtain ⟨tail, htail, -⟩ := h.behind q _ hr
    have hpast := h.sound.past q tail htail
    have hvalue : tail.value = hash := hlast q _ hr tail htail
    refine ⟨(HashChain.get_of_tail htail hpast).trans hvalue, fun s a hmiss hload => ?_⟩
    exact h.sound.getHash_of_loadBucket hmiss ⟨tail, htail, hvalue, hpast⟩ hload

variable {clock : Clock} {n : Node} {p : PageId} {s : IndexEnc}

/-- A load keeps the chains behind the time stamps received. -/
theorem Timely.loaded (h : Timely clock n) (hload : Loaded clock n.index s p)
    (hsound : Sound clock s) : Timely clock { n with index := s } := by
  refine ⟨hsound, fun q r hr => ?_⟩
  obtain ⟨tail, htail, hle⟩ := h.behind q r hr
  by_cases hq : q = p
  · subst hq
    exact ⟨tail, hload.known tail htail, hle⟩
  · by_cases hout : ∃ x, n.index.Evicts p q x
    · obtain ⟨x, hx⟩ := hout
      obtain ⟨-, page, -, hnew⟩ := hload.evicted q x hx
      exact ⟨_, hnew, hle.trans (h.sound.past q tail htail)⟩
    · refine ⟨tail, ?_, hle⟩
      rw [← htail]
      exact hload.other q hq fun x hx => hout ⟨x, hx⟩

/-- A load leaves the received hashes at the ends of their chains exactly if it evicts no
    stale copy. -/
theorem lastAt_loaded_iff (hlast : ∀ q, n.LastAt q)
    (hload : Loaded clock n.index s p) :
    (∀ q, q ≠ p → LastAt { n with index := s } q) ↔ n.Undisturbed p := by
  constructor
  · intro hall q x page ts hash hx hpage hr
    obtain ⟨hq, page', hpage', hnew⟩ := hload.evicted q x hx
    rw [hpage] at hpage'
    cases hpage'
    exact hall q hq _ hr _ hnew
  · rintro hquiet q hq ⟨ts, hash⟩ hr tail htail
    by_cases hout : ∃ x, n.index.Evicts p q x
    · obtain ⟨x, hx⟩ := hout
      obtain ⟨-, page, hpage, hnew⟩ := hload.evicted q x hx
      have htail' : (s.verifyHash q).tail = some tail := htail
      rw [hnew] at htail'
      cases htail'
      exact hquiet q x page ts hash hx hpage hr
    · refine hlast q _ hr tail ?_
      rw [← hload.other q hq fun x hx => hout ⟨x, hx⟩]
      exact htail

/-- The loaded page's own chain keeps its last item. -/
theorem Timely.lastAt_loaded_self (h : Timely clock n) (hlast : ∀ q, n.LastAt q)
    (hload : Loaded clock n.index s p) : LastAt { n with index := s } p := by
  intro r hr tail htail
  obtain ⟨tail', htail', -⟩ := h.behind p r hr
  have hknown := hload.known tail' htail'
  have htail : (s.verifyHash p).tail = some tail := htail
  rw [htail] at hknown
  cases hknown
  exact hlast p r hr tail htail'

/-- The last item of the chain of `p` when its page has been loaded. -/
theorem tail_loaded (hload : Loaded clock n.index s p) (hash : UInt64) {ts : Nat}
    (hclock : ts ≤ clock.time n.index.ticks) :
    ∃ tail, (s.verifyHash p).tail = some tail ∧
      (n.Arrives p hash ts ↔ tail.commitTs < ts ∨ tail.value = hash) := by
  unfold Arrives
  cases htail : (n.index.verifyHash p).tail with
  | some tail => exact ⟨tail, hload.known tail htail, Iff.rfl⟩
  | none =>
      obtain ⟨t, ht, hfirst⟩ := hload.first htail
      refine ⟨_, hfirst, ?_⟩
      have hlate : ¬ t < ts := Nat.not_lt.mpr (hclock.trans ht)
      simp only [hlate, false_or]

/-- The node with a received hash in the chain of `p`. -/
def adopt (n : Node) (p : PageId) (hash : UInt64) (ts : Nat) (chain : HashChain) : Node :=
  ⟨{ n.index with verifyHash := Function.update n.index.verifyHash p chain },
    n.receive p hash ts⟩

theorem receive_of_ne {q : PageId} (hq : q ≠ p) (hash : UInt64) (ts : Nat) :
    n.receive p hash ts q = n.received q := by
  unfold receive
  split
  · exact Function.update_of_ne hq _ _
  · rfl

theorem receive_self (n : Node) (p : PageId) (hash : UInt64) (ts : Nat) :
    n.receive p hash ts p = if n.Newest p ts then some (ts, hash) else n.received p := by
  unfold receive
  split
  · exact Function.update_self ..
  · rfl

theorem adopt_chain_of_ne {q : PageId} (hq : q ≠ p) (hash : UInt64) (ts : Nat)
    (chain : HashChain) :
    (n.adopt p hash ts chain).index.verifyHash q = n.index.verifyHash q :=
  Function.update_of_ne hq _ _

theorem adopt_chain_self (n : Node) (p : PageId) (hash : UInt64) (ts : Nat) (chain : HashChain) :
    (n.adopt p hash ts chain).index.verifyHash p = chain :=
  Function.update_self ..

/-- A time stamp that is not the newest is not after the end of the chain. -/
theorem Timely.le_tail_of_not_newest (h : Timely clock n) {ts : Nat} {tail : HashItem}
    (htail : (n.index.verifyHash p).tail = some tail) (hnot : ¬ n.Newest p ts) :
    ¬ tail.commitTs < ts := by
  unfold Newest at hnot
  push Not at hnot
  obtain ⟨r, hr, hle⟩ := hnot
  obtain ⟨tail', htail', hbehind⟩ := h.behind p r hr
  rw [htail] at htail'
  cases htail'
  exact Nat.not_lt.mpr (hle.trans hbehind)

section Adopt

variable {hash : UInt64} {ts : Nat} {chain : HashChain} {tail : HashItem}

theorem Timely.adopt (h : Timely clock n) (hclock : ts ≤ clock.time n.index.ticks)
    (htail : (n.index.verifyHash p).tail = some tail)
    (hchain : chain.tail = if tail.commitTs < ts then some ⟨hash, ts⟩ else some tail) :
    Timely clock (n.adopt p hash ts chain) := by
  refine ⟨⟨h.sound.fresh, fun q a hq => ?_, fun q item hitem => ?_⟩, fun q r hr => ?_⟩
  · by_cases hqp : q = p
    · subst hqp
      rw [adopt_chain_self, hchain]
      split <;> rfl
    · rw [adopt_chain_of_ne hqp]
      exact h.sound.chained q a hq
  · by_cases hqp : q = p
    · subst hqp
      rw [adopt_chain_self, hchain] at hitem
      split at hitem
      · cases hitem
        exact hclock
      · cases hitem
        exact h.sound.past q tail htail
    · rw [adopt_chain_of_ne hqp] at hitem
      exact h.sound.past q item hitem
  · by_cases hqp : q = p
    · subst hqp
      have hr : n.receive q hash ts q = some r := hr
      rw [adopt_chain_self, hchain]
      rw [receive_self] at hr
      split at hr
      · cases hr
        split
        · exact ⟨_, rfl, Nat.le_refl _⟩
        · rename_i hge
          exact ⟨_, rfl, Nat.not_lt.mp hge⟩
      · rename_i hnot
        obtain ⟨tail', htail', hle⟩ := h.behind q r hr
        rw [htail] at htail'
        cases htail'
        rw [if_neg (h.le_tail_of_not_newest htail hnot)]
        exact ⟨tail, rfl, hle⟩
    · have hr : n.receive p hash ts q = some r := hr
      rw [receive_of_ne hqp] at hr
      rw [adopt_chain_of_ne hqp]
      exact h.behind q r hr

theorem lastAt_adopt_of_ne {q : PageId} (hqp : q ≠ p) :
    (n.adopt p hash ts chain).LastAt q ↔ n.LastAt q := by
  unfold LastAt
  rw [adopt_chain_of_ne hqp]
  have hr : (n.adopt p hash ts chain).received q = n.received q := receive_of_ne hqp hash ts
  rw [hr]

theorem Timely.lastAt_adopt_self (h : Timely clock n) (hlast : n.LastAt p)
    (htail : (n.index.verifyHash p).tail = some tail)
    (hchain : chain.tail = if tail.commitTs < ts then some ⟨hash, ts⟩ else some tail) :
    (n.adopt p hash ts chain).LastAt p ↔
      (n.Newest p ts → tail.commitTs < ts ∨ tail.value = hash) := by
  have hr : (n.adopt p hash ts chain).received p =
      if n.Newest p ts then some (ts, hash) else n.received p := receive_self ..
  unfold LastAt
  rw [adopt_chain_self, hchain, hr]
  by_cases hnew : n.Newest p ts
  · by_cases hlt : tail.commitTs < ts
    · simp [hnew, hlt]
    · simp [hnew, hlt]
  · simp only [if_neg (h.le_tail_of_not_newest htail hnew), hnew, false_implies,
      iff_true]
    rintro r hr _ ⟨⟩
    exact hlast r hr tail htail

end Adopt

theorem Timely.releaseUpCache (h : Timely clock n) (p : PageId) :
    Timely clock { n with index := n.index.releaseUpCache p } where
  sound :=
    { fresh := fun q a hq => h.sound.fresh q a (by
        rwa [IndexEnc.releaseUpCache, LruCache.value_release] at hq)
      chained := fun q a hq => h.sound.chained q a (by
        rwa [IndexEnc.releaseUpCache, LruCache.value_release] at hq)
      past := h.sound.past }
  behind := h.behind

/-- Every call keeps the chains behind the time stamps received, and the received hashes at
    their ends exactly if it meets the condition. -/
theorem Timely.step {n' : Node} {call : Call} (h : Timely clock n)
    (hstep : n.step clock call = some n') :
    Timely clock n' ∧ ((∀ q, n.LastAt q) → ((∀ q, n'.LastAt q) ↔ n.Lasting call)) := by
  cases call with
  | loadBucket p =>
      rw [Node.step] at hstep
      split at hstep
      · rename_i index a hload
        cases hstep
        obtain ⟨hloaded, hsound⟩ := h.sound.loadBucket hload
        refine ⟨h.loaded hloaded hsound, fun hlast => ?_⟩
        refine Iff.trans ?_ (lastAt_loaded_iff hlast hloaded)
        refine ⟨fun hall q _ => hall q, fun hall q => ?_⟩
        by_cases hq : q = p
        · subst hq
          exact h.lastAt_loaded_self hlast hloaded
        · exact hall q hq
      · cases hstep
  | updateVerifyHash p hash ts beginTs =>
      rw [Node.step] at hstep
      split at hstep
      case isFalse => cases hstep
      rename_i hclock
      split at hstep
      · rename_i index hupdate
        cases hstep
        obtain ⟨s₁, a, chain, hload, hinsert, rfl⟩ := updateVerifyHash_ok hupdate
        obtain ⟨hloaded, hsound⟩ := h.sound.loadBucket hload
        have htimely := h.loaded hloaded hsound
        obtain ⟨tail, htail, harrives⟩ := tail_loaded hloaded hash hclock
        have hchain : (chain.vaccumStep beginTs).tail =
            if tail.commitTs < ts then some ⟨hash, ts⟩ else some tail := by
          rw [HashChain.tail_vaccumStep]
          exact HashChain.tail_insert htail hinsert
        have hclock' : ts ≤ clock.time s₁.ticks := hclock.trans (clock.mono hloaded.ticks)
        refine ⟨(htimely.adopt hclock' htail hchain).releaseUpCache p, fun hlast => ?_⟩
        have hself := htimely.lastAt_adopt_self (h.lastAt_loaded_self hlast hloaded) htail hchain
        rw [Lasting, ← lastAt_loaded_iff hlast hloaded, harrives]
        constructor
        · intro hall
          exact ⟨fun q hq => (lastAt_adopt_of_ne hq).mp (hall q), hself.mp (hall p)⟩
        · rintro ⟨hothers, hp⟩ q
          by_cases hq : q = p
          · subst hq
            exact hself.mpr hp
          · exact (lastAt_adopt_of_ne hq).mpr (hothers q hq)
      · cases hstep
  | releaseUpCache p =>
      cases hstep
      exact ⟨h.releaseUpCache p, fun hlast => iff_of_true hlast trivial⟩
  | replaceOrigin p nodes =>
      cases hstep
      exact ⟨⟨⟨h.sound.fresh, h.sound.chained, h.sound.past⟩, h.behind⟩,
        fun hlast => iff_of_true hlast trivial⟩

/-! ### Whole runs -/

/-- In every run the newest received hashes are adopted all the time exactly if every call
    meets the condition: no stale copy is evicted, and a hash received as the newest is
    later than everything in its chain, which the entry of the first load is not. -/
theorem adopted_iff_lasting (clock : Clock) (contents : PageId → Bucket)
    (bucketCnt partCnt siz : Nat) (calls : List Call) (last : Node)
    (hrun : runs (Node.step clock) (init contents bucketCnt partCnt siz) calls = some last) :
    (∀ k n, runs (Node.step clock) (init contents bucketCnt partCnt siz) (calls.take k) = some n →
        n.Adopted clock) ↔
      AllSteps (Node.step clock) Node.Lasting (init contents bucketCnt partCnt siz) calls := by
  have hlastInit : ∀ q, LastAt (init contents bucketCnt partCnt siz) q := by
    intro q r hr
    cases hr
  have hinit := timely_init clock contents bucketCnt partCnt siz
  have hiff := runs_prefixes_iff (C := Node.Lasting) (J := Timely clock) (P := Adopted clock)
    (Q := fun _ => True) (fun n call n' h hstep => (h.step hstep).1)
    (fun n call n' h hadopted hstep => ?_) (fun _ _ _ _ hnot => absurd trivial hnot) hinit
    (hinit.adopted_iff.mpr hlastInit) hrun
  · simpa only [true_implies] using hiff
  · rw [(h.step hstep).1.adopted_iff]
    exact (h.step hstep).2 (h.adopted_iff.mp hadopted)

/-! ### A bucket with one row and room for one -/

/-- A clock that starts at 1. -/
def fromOne : Clock := ⟨fun n => n + 1, fun _ _ h => Nat.succ_le_succ h⟩

/-- A hash received after the first load, with a later time stamp. -/
theorem adopted_after_load :
    ∃ n, runs (Node.step fromOne) (init oneRow 2 1 1024)
        [.loadBucket (0, 0), .updateVerifyHash (0, 0) 77 2 []] = some n ∧
      n.received (0, 0) = some (2, 77) ∧
      (n.index.verifyHash (0, 0)).get (fromOne.time n.index.ticks) = 77 := by
  refine ⟨_, rfl, by decide, ?_⟩
  have hrun := (adopted_iff_lasting fromOne oneRow 2 1 1024
    [.loadBucket (0, 0), .updateVerifyHash (0, 0) 77 2 []] _ rfl).mpr ?_ 2 _ rfl
  · exact (hrun (0, 0) 2 77 (by decide)).1
  · refine ⟨?_, ?_⟩
    · intro q x page ts hash _ _ hr
      cases hr
    · rintro _ ⟨⟩
      refine ⟨⟨?_, fun _ => Or.inl (by decide)⟩, fun _ _ => trivial⟩
      intro q x page ts hash _ _ hr
      cases hr

/-- A hash received before the first load stays behind the hash of the copy loaded then; and
    one that has arrived is lost when the old copy is evicted. -/
theorem received_hash_lost :
    (∃ n, runs (Node.step fromOne) (init oneRow 2 1 1024)
        [.updateVerifyHash (0, 0) 77 0 []] = some n ∧
      n.received (0, 0) = some (0, 77) ∧ ¬ n.Adopted fromOne) ∧
    (∃ n, runs (Node.step fromOne) (init oneRow 2 1 1024)
        [.loadBucket (0, 0), .updateVerifyHash (0, 0) 77 2 [], .releaseUpCache (0, 0),
          .loadBucket (0, 1)] = some n ∧
      n.received (0, 0) = some (2, 77) ∧ ¬ n.Adopted fromOne) := by
  refine ⟨⟨_, rfl, by decide, fun h => ?_⟩, ⟨_, rfl, by decide, fun h => ?_⟩⟩
  · exact absurd (h (0, 0) 0 77 (by decide)).1 (by decide)
  · exact absurd (h (0, 0) 2 77 (by decide)).1 (by decide)

end Node

end HashIndex

end VeriTxn
