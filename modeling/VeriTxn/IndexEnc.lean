import VeriTxn.HashBucket
import VeriTxn.HashChain
import VeriTxn.LruCache
import Mathlib.Order.Monotone.Defs

/-!
# The verified hash index

`IndexEnc` on the read-write node: `PAGE_VERI`, `ENABLE_DATA_CACHE` true,
`LAZY_OFFLOADING` 1, `TAMPER_PERCENTAGE` 0, every page inside the data cache.  A
page lives in up to three places: the copy in the cache, the origin bucket of
the untrusted `IndexHash`, and its hash at the tail of the page's chain.
Pages inside the enclave are named by their address.

The parts of `load_bucket` are functions of their own, one for each
critical section; here they run one after another.  `get_enc_time` may be any
clock that does not go back; calls whose result nobody reads are left out.
-/

namespace VeriTxn.HashIndex

open Bytes

/-- `get_enc_time`, by the number of calls before. -/
structure Clock where
  time : Nat → Nat
  mono : Monotone time

/-- `BucketHeader_ENC`: its slot (`part`, `bkt`) and its nodes. -/
structure Page where
  slot : PageId
  nodes : Bucket

/-- `IndexEnc` with the `IndexHash` it caches. -/
structure IndexEnc where
  /-- `IndexHash::_buckets`, contents and latch -/
  buckets : PageId → Bucket
  locked : PageId → Bool
  /-- the enclave's heap of pages -/
  pages : Nat → Option Page
  nextAddr : Nat
  cache : LruCache Nat
  verifyHash : PageId → HashChain
  /-- calls of `get_enc_time` so far -/
  ticks : Nat

/-- Why a call does not return: it waits for ever, an assertion of the cache on
    the slot or one on a hash fails, a pointer is null or freed, or the row to be
    changed is not loaded. -/
inductive Fault where
  | spin | outOfRange | hashMismatch | badPointer | notLoaded
deriving DecidableEq, Repr

namespace IndexEnc

/-- `init`, over the contents of the untrusted index. -/
def init (contents : PageId → Bucket) (bucketCnt partCnt siz : Nat) : IndexEnc where
  buckets := contents
  locked := fun _ => false
  pages := fun _ => none
  nextAddr := 0
  cache := LruCache.init bucketCnt partCnt siz
  verifyHash := fun _ => HashChain.new
  ticks := 0

/-- A page pointer followed. -/
def page (s : IndexEnc) (a : Nat) : Except Fault Page :=
  match s.pages a with
  | none => .error .badPointer
  | some page => .ok page

/-- `delete` of a page. -/
def deletePage (s : IndexEnc) (a : Nat) : IndexEnc :=
  { s with pages := Function.update s.pages a none }

/-- The copy of a bucket, made under the bucket's latch, which stays taken. -/
def copyIn (s : IndexEnc) (p : PageId) : Except Fault (IndexEnc × Nat) :=
  if s.locked p then .error .spin
  else
    match copyBucket (s.buckets p) with
    | none => .error .hashMismatch
    | some nodes =>
        .ok ({ s with
          locked := Function.update s.locked p true
          pages := Function.update s.pages s.nextAddr (some ⟨p, nodes⟩)
          nextAddr := s.nextAddr + 1 }, s.nextAddr)

/-- One round of the loop around `load_and_swap`; `none` is `Abort`. -/
def swapIn (s : IndexEnc) (p : PageId) (resBucket : Nat) :
    Except Fault (IndexEnc × Option (Swap Nat)) := do
  let page ← s.page resBucket
  match s.cache.loadAndSwap p (totalSize page.nodes) resBucket with
  | none => throw .outOfRange
  | some (cache, swap) => pure ({ s with cache := cache }, swap)

/-- `release_latch` of the origin bucket. -/
def unlatch (s : IndexEnc) (p : PageId) : IndexEnc :=
  { s with locked := Function.update s.locked p false }

/-- The evicted page's hash becomes the last of its chain. -/
def refreshTail (clock : Clock) (s : IndexEnc) (sw : PageId) (flushed : Nat) :
    Except Fault IndexEnc := do
  let page ← s.page flushed
  match (s.verifyHash sw).setTail (getHash page.nodes) (clock.time s.ticks) with
  | none => throw .badPointer
  | some chain =>
      pure { s with
        verifyHash := Function.update s.verifyHash sw chain
        ticks := s.ticks + 1 }

/-- `flush_out`: the copy replaces the whole origin bucket, its latch included. -/
def flushOut (s : IndexEnc) (sw : PageId) (flushed : Nat) : Except Fault IndexEnc := do
  let page ← s.page flushed
  match copyBucket page.nodes with
  | none => throw .hashMismatch
  | some res =>
      if s.locked sw then throw .spin
      else if getHash page.nodes = getHash res then
        pure { s with
          buckets := Function.update s.buckets sw res
          locked := Function.update s.locked sw false }
      else throw .hashMismatch

/-- The check of a page that was just copied in against its chain. -/
def verify (clock : Clock) (s : IndexEnc) (p : PageId) (cur : Nat) : Except Fault IndexEnc := do
  let page ← s.page cur
  if (s.verifyHash p).empty then
    match (s.verifyHash p).insert (clock.time s.ticks) (getHash page.nodes) with
    | none => throw .hashMismatch
    | some chain =>
        pure { s with
          verifyHash := Function.update s.verifyHash p chain
          ticks := s.ticks + 1 }
  else if (s.verifyHash p).get (clock.time s.ticks) = getHash page.nodes then
    pure { s with ticks := s.ticks + 1 }
  else throw .hashMismatch

/-- What `load_bucket` does with the page that made room. -/
def offload (clock : Clock) (s : IndexEnc) : Option (PageId × Nat) → Except Fault IndexEnc
  | none => pure s
  | some (sw, flushed) => do
      let s ← s.refreshTail clock sw flushed
      let s ← s.flushOut sw flushed
      pure (s.deletePage flushed)

/-- `load_bucket`.  While the loop around `load_and_swap` runs nobody releases a
    page, so once it is refused it is refused for ever. -/
def loadBucket (clock : Clock) (s : IndexEnc) (p : PageId) : Except Fault (IndexEnc × Nat) :=
  match s.cache.tryLoad p with
  | none => .error .outOfRange
  | some (cache, some cur) => .ok ({ s with cache := cache }, cur)
  | some (cache, none) => do
      let (s, resBucket) ← IndexEnc.copyIn { s with cache := cache } p
      let (s, swap) ← s.swapIn p resBucket
      match swap with
      | none => throw .spin
      | some swap =>
          let s ← (s.unlatch p).offload clock swap.swapped
          if swap.res ≠ resBucket then pure (s.deletePage resBucket, swap.res)
          else
            let s ← s.verify clock p swap.res
            pure (s, swap.res)

/-- The slot of a key: `hash`. -/
def slotOf (s : IndexEnc) (part : Nat) (key : IdxKey) : PageId := (part, key.val % s.cache.m)

/-- `index_read`. -/
def indexRead (clock : Clock) (s : IndexEnc) (part : Nat) (key : IdxKey) :
    Except Fault (IndexEnc × List Row) := do
  let (s, curBkt) ← s.loadBucket clock (s.slotOf part key)
  let page ← s.page curBkt
  pure (s, readItem key page.nodes)

/-- `release_up_cache`. -/
def releaseUpCache (s : IndexEnc) (p : PageId) : IndexEnc :=
  { s with cache := s.cache.release p }

/-- An in-place change of a row of a loaded bucket. -/
def writeRow (s : IndexEnc) (part : Nat) (key : IdxKey) (i : Nat) (data : List Byte) :
    Except Fault IndexEnc :=
  match s.cache.value (s.slotOf part key) with
  | none => .error .notLoaded
  | some a => do
      let page ← s.page a
      pure { s with
        pages := Function.update s.pages a
          (some { page with nodes := setData key i data page.nodes }) }

/-- What a client of the index does.  Evictions happen inside `index_read`. -/
inductive Action where
  | indexRead (part : Nat) (key : IdxKey)
  | writeRow (part : Nat) (key : IdxKey) (i : Nat) (data : List Byte)
  | releaseUpCache (p : PageId)

def step (clock : Clock) (s : IndexEnc) : Action → Except Fault IndexEnc
  | .indexRead part key => (s.indexRead clock part key).map Prod.fst
  | .writeRow part key i data => s.writeRow part key i data
  | .releaseUpCache p => .ok (s.releaseUpCache p)

/-! ### What the parts do when they return -/

@[simp] theorem ok_bind {α β : Type} (a : α) (f : α → Except Fault β) :
    (Except.ok a >>= f) = f a := rfl

@[simp] theorem pure_eq_ok {α : Type} (a : α) : (pure a : Except Fault α) = .ok a := rfl

theorem page_eq {s : IndexEnc} {a : Nat} {page : Page} (h : s.pages a = some page) :
    s.page a = .ok page := by
  rw [IndexEnc.page, h]

theorem copyIn_eq {s : IndexEnc} {p : PageId} (h : s.locked p = false) :
    s.copyIn p = .ok ({ s with
      locked := Function.update s.locked p true
      pages := Function.update s.pages s.nextAddr (some ⟨p, s.buckets p⟩)
      nextAddr := s.nextAddr + 1 }, s.nextAddr) := by
  simp [copyIn, h]

theorem swapIn_eq {s : IndexEnc} {p : PageId} {a : Nat} {page : Page}
    (hpage : s.pages a = some page) :
    s.swapIn p a = match s.cache.loadAndSwap p (totalSize page.nodes) a with
      | none => .error .outOfRange
      | some (cache, swap) => .ok ({ s with cache := cache }, swap) := by
  rw [swapIn, page_eq hpage]
  rfl

theorem refreshTail_eq {clock : Clock} {s : IndexEnc} {sw : PageId} {a : Nat} {page : Page}
    {chain : HashChain} (hpage : s.pages a = some page)
    (hset : (s.verifyHash sw).setTail (getHash page.nodes) (clock.time s.ticks) = some chain) :
    s.refreshTail clock sw a = .ok { s with
      verifyHash := Function.update s.verifyHash sw chain
      ticks := s.ticks + 1 } := by
  simp [refreshTail, page_eq hpage, hset]

theorem flushOut_eq {s : IndexEnc} {sw : PageId} {a : Nat} {page : Page}
    (hpage : s.pages a = some page) (h : s.locked sw = false) :
    s.flushOut sw a = .ok { s with
      buckets := Function.update s.buckets sw page.nodes
      locked := Function.update s.locked sw false } := by
  simp [flushOut, page_eq hpage, h]

/-! ### What is known when they have returned -/

theorem copyIn_ok {s s' : IndexEnc} {p : PageId} {a : Nat} (h : s.copyIn p = .ok (s', a)) :
    s.locked p = false ∧ a = s.nextAddr ∧ s' = { s with
      locked := Function.update s.locked p true
      pages := Function.update s.pages s.nextAddr (some ⟨p, s.buckets p⟩)
      nextAddr := s.nextAddr + 1 } := by
  cases hlocked : s.locked p with
  | true => simp [copyIn, hlocked] at h
  | false =>
      rw [copyIn_eq hlocked] at h
      cases h
      exact ⟨rfl, rfl, rfl⟩

theorem swapIn_ok {s s' : IndexEnc} {p : PageId} {a : Nat} {r : Option (Swap Nat)}
    (h : s.swapIn p a = .ok (s', r)) : ∃ page cache, s.pages a = some page ∧
      s.cache.loadAndSwap p (totalSize page.nodes) a = some (cache, r) ∧
      s' = { s with cache := cache } := by
  cases hpage : s.pages a with
  | none => simp [swapIn, IndexEnc.page, hpage, bind, Except.bind] at h
  | some page =>
      rw [swapIn_eq hpage] at h
      split at h
      · cases h
      · cases h
        exact ⟨page, _, rfl, by assumption, rfl⟩

theorem refreshTail_ok {clock : Clock} {s s' : IndexEnc} {sw : PageId} {a : Nat}
    (h : s.refreshTail clock sw a = .ok s') : ∃ chain, s' = { s with
      verifyHash := Function.update s.verifyHash sw chain
      ticks := s.ticks + 1 } := by
  cases hpage : s.pages a with
  | none => simp [refreshTail, IndexEnc.page, hpage, bind, Except.bind] at h
  | some page =>
      rw [refreshTail, page_eq hpage, ok_bind] at h
      split at h
      · cases h
      · cases h
        exact ⟨_, rfl⟩

theorem flushOut_ok {s s' : IndexEnc} {sw : PageId} {a : Nat} (h : s.flushOut sw a = .ok s') :
    ∃ page, s.pages a = some page ∧ s.locked sw = false ∧ s' = { s with
      buckets := Function.update s.buckets sw page.nodes
      locked := Function.update s.locked sw false } := by
  cases hpage : s.pages a with
  | none => simp [flushOut, IndexEnc.page, hpage, bind, Except.bind] at h
  | some page =>
      cases hlocked : s.locked sw with
      | true =>
          simp [flushOut, page_eq hpage, hlocked, throw, throwThe, MonadExceptOf.throw] at h
      | false =>
          rw [flushOut_eq hpage hlocked] at h
          cases h
          exact ⟨page, rfl, rfl, rfl⟩

theorem verify_ok {clock : Clock} {s s' : IndexEnc} {p : PageId} {a : Nat}
    (h : s.verify clock p a = .ok s') : ∃ verifyHash, s' = { s with
      verifyHash := verifyHash
      ticks := s.ticks + 1 } := by
  cases hpage : s.pages a with
  | none => simp [IndexEnc.verify, IndexEnc.page, hpage, bind, Except.bind] at h
  | some page =>
      rw [IndexEnc.verify, page_eq hpage, ok_bind] at h
      split at h
      · split at h
        · cases h
        · cases h
          exact ⟨_, rfl⟩
      · split at h
        · cases h
          exact ⟨_, rfl⟩
        · cases h

end IndexEnc

end VeriTxn.HashIndex
