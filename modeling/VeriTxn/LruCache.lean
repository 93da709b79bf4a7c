import VeriTxn.Types
import Mathlib.Logic.Function.Basic
import Mathlib.Tactic.Push

/-!
# The page cache

`lru_cache` as both indexes use it: `LAZY_OFFLOADING` 1 and no lease.  A slot is
named by its partition and page index and holds a value of type `V`, a page
pointer in the source.  Each operation is one critical section of the cache's
own latch, so it is one step.

Counters are `uint64_t`: releasing a page with `_read_cnt` 0 wraps the count.
`free_pool` remembers a page with the time stamp it had when its last pin went;
an entry counts only as long as the page still has that time stamp.
-/

namespace VeriTxn

/-- A slot of the cache: partition and page index. -/
abbrev PageId := Nat × Nat

/-- `cache_node`. -/
structure CacheNode (V : Type) where
  ts : Nat
  readCnt : Nat
  value : V
  size : Nat

/-- `cache_visit`. -/
structure CacheVisit where
  page : PageId
  ts : Nat
  size : Nat

/-- `lru_cache`. -/
structure LruCache (V : Type) where
  cache : PageId → Option (CacheNode V)
  /-- number of partitions and of pages in each -/
  n : Nat
  m : Nat
  freePool : List CacheVisit
  cachedBytes : Nat
  timestamp : Nat
  limit : Nat

/-- What `load_and_swap` reports: the evicted page, and the value now in the slot. -/
structure Swap (V : Type) where
  swapped : Option (PageId × V)
  res : V

namespace LruCache

variable {V : Type}

/-- `init`. -/
def init (bucketCnt partCnt siz : Nat) : LruCache V where
  cache := fun _ => none
  n := partCnt
  m := bucketCnt / partCnt
  freePool := []
  cachedBytes := 0
  timestamp := 0
  limit := siz

def InRange (c : LruCache V) (p : PageId) : Prop := p.1 < c.n ∧ p.2 < c.m

instance (c : LruCache V) (p : PageId) : Decidable (c.InRange p) :=
  inferInstanceAs (Decidable (_ ∧ _))

/-- `_read_cnt - 1` on `uint64_t`; `std::max` with 0 changes nothing. -/
def decrement (readCnt : Nat) : Nat := wrap64 (readCnt + 2 ^ 64 - 1)

/-- `release`. -/
def release (c : LruCache V) (p : PageId) : LruCache V :=
  match c.cache p with
  | none => c
  | some node =>
      let readCnt := decrement node.readCnt
      { c with
        cache := Function.update c.cache p (some { node with readCnt := readCnt })
        freePool := if readCnt = 0 then c.freePool ++ [⟨p, node.ts, node.size⟩] else c.freePool }

/-- `try_load`, which asserts that the slot exists. -/
def tryLoad (c : LruCache V) (p : PageId) : Option (LruCache V × Option V) :=
  if c.InRange p then
    match c.cache p with
    | none => some (c, none)
    | some node =>
        let timestamp := wrap64 (c.timestamp + 1)
        some ({ c with
          cache := Function.update c.cache p (some { node with
            readCnt := wrap64 (node.readCnt + 1)
            ts := max node.ts timestamp })
          timestamp := timestamp }, some node.value)
  else none

/-- `cache_free`: the page of the first entry of `free_pool` that still counts. -/
def cacheFree (c : LruCache V) : List CacheVisit → LruCache V × Option (PageId × V)
  | [] => ({ c with freePool := [] }, none)
  | it :: pool =>
      match c.cache it.page with
      | none => cacheFree c pool
      | some cur =>
          if cur.ts ≠ it.ts then cacheFree c pool
          else
            ({ c with
              cache := Function.update c.cache it.page none
              cachedBytes := wrap64 (c.cachedBytes + 2 ^ 64 - it.size)
              freePool := pool }, some (it.page, cur.value))

/-- `load_and_swap`.  The outer `none` is a failed assertion, the inner one
    `Abort`, which changes no more than `free_pool`. -/
def loadAndSwap (c : LruCache V) (p : PageId) (bytesSize : Nat) (inserted : V) :
    Option (LruCache V × Option (Swap V)) :=
  if c.InRange p then
    let timestamp := wrap64 (c.timestamp + 1)
    match c.cache p with
    | some node =>
        some ({ c with
          cache := Function.update c.cache p (some { node with
            readCnt := wrap64 (node.readCnt + 1)
            ts := timestamp })
          timestamp := timestamp }, some ⟨none, node.value⟩)
    | none =>
        let node : CacheNode V := ⟨timestamp, 1, inserted, bytesSize⟩
        if wrap64 (c.cachedBytes + bytesSize) > c.limit then
          match c.cacheFree c.freePool with
          | (c, none) => some (c, none)
          | (c, some victim) =>
              some ({ c with
                cache := Function.update c.cache p (some node)
                timestamp := timestamp }, some ⟨some victim, inserted⟩)
        else
          some ({ c with
            cache := Function.update c.cache p (some node)
            cachedBytes := wrap64 (c.cachedBytes + bytesSize)
            timestamp := timestamp }, some ⟨none, inserted⟩)
  else none

/-- `can_force_load`: at most half of the space is in use. -/
def canForceLoad (c : LruCache V) : Bool := wrap64 (c.cachedBytes * 2) ≤ c.limit

/-- The value in a slot. -/
def value (c : LruCache V) (p : PageId) : Option V := (c.cache p).map CacheNode.value

/-! ### What the operations do to the values -/

@[simp] theorem value_release (c : LruCache V) (p q : PageId) :
    (c.release p).value q = c.value q := by
  unfold release
  cases hp : c.cache p with
  | none => rfl
  | some node =>
      by_cases hq : q = p
      · subst hq
        simp [value, hp]
      · simp [value, hq]

@[simp] theorem release_params (c : LruCache V) (p : PageId) :
    (c.release p).n = c.n ∧ (c.release p).m = c.m ∧ (c.release p).limit = c.limit ∧
      (c.release p).cachedBytes = c.cachedBytes := by
  unfold release
  split <;> simp

/-- A hit pins the page and changes no value; a miss changes nothing. -/
theorem tryLoad_eq {c : LruCache V} {p : PageId} (h : c.InRange p) :
    ∃ c', c.tryLoad p = some (c', c.value p) ∧ (∀ q, c'.value q = c.value q) ∧
      c'.n = c.n ∧ c'.m = c.m ∧ c'.limit = c.limit ∧ c'.cachedBytes = c.cachedBytes := by
  rw [tryLoad, if_pos h]
  cases hp : c.cache p with
  | none => exact ⟨c, by simp [value, hp], fun _ => rfl, rfl, rfl, rfl, rfl⟩
  | some node =>
      have hvalue : c.value p = some node.value := by rw [value, hp, Option.map_some]
      rw [hvalue]
      refine ⟨_, rfl, fun q => ?_, rfl, rfl, rfl, rfl⟩
      by_cases hq : q = p
      · subst hq
        simp [value, hp]
      · simp [value, hq]

/-- Loading into an empty slot when there is room. -/
theorem loadAndSwap_room {c : LruCache V} {p : PageId} {bytesSize : Nat} (inserted : V)
    (h : c.InRange p) (hempty : c.value p = none) (hroom : c.cachedBytes + bytesSize ≤ c.limit)
    (hlimit : c.limit < 2 ^ 64) :
    ∃ c', c.loadAndSwap p bytesSize inserted = some (c', some ⟨none, inserted⟩) ∧
      (∀ q, c'.value q = if q = p then some inserted else c.value q) ∧
      c'.n = c.n ∧ c'.m = c.m ∧ c'.limit = c.limit ∧
      c'.cachedBytes = c.cachedBytes + bytesSize := by
  have hslot : c.cache p = none := by simpa [value] using hempty
  have hwrap : wrap64 (c.cachedBytes + bytesSize) = c.cachedBytes + bytesSize :=
    Nat.mod_eq_of_lt (Nat.lt_of_le_of_lt hroom hlimit)
  rw [loadAndSwap, if_pos h]
  simp only [hslot, hwrap, gt_iff_lt, Nat.not_lt.mpr hroom, if_false]
  refine ⟨_, rfl, fun q => ?_, rfl, rfl, rfl, rfl⟩
  by_cases hq : q = p
  · subst hq
    simp [value]
  · simp [value, hq]

/-- A victim of `cache_free` is a resident page with an entry of its own time
    stamp; without a victim only the entries go. -/
theorem cacheFree_cases (c : LruCache V) (pool : List CacheVisit) :
    ((c.cacheFree pool).2 = none ∧ (c.cacheFree pool).1 = { c with freePool := [] }) ∨
    ∃ e node rest, e ∈ pool ∧ rest ⊆ pool ∧ c.cache e.page = some node ∧ node.ts = e.ts ∧
      (c.cacheFree pool).2 = some (e.page, node.value) ∧
      (c.cacheFree pool).1 = { c with
        cache := Function.update c.cache e.page none
        cachedBytes := wrap64 (c.cachedBytes + 2 ^ 64 - e.size)
        freePool := rest } := by
  induction pool with
  | nil => exact Or.inl ⟨rfl, rfl⟩
  | cons it pool ih =>
      have hskip : c.cacheFree (it :: pool) = c.cacheFree pool →
          ((c.cacheFree (it :: pool)).2 = none ∧
            (c.cacheFree (it :: pool)).1 = { c with freePool := [] }) ∨
          ∃ e node rest, e ∈ it :: pool ∧ rest ⊆ it :: pool ∧ c.cache e.page = some node ∧
            node.ts = e.ts ∧ (c.cacheFree (it :: pool)).2 = some (e.page, node.value) ∧
            (c.cacheFree (it :: pool)).1 = { c with
              cache := Function.update c.cache e.page none
              cachedBytes := wrap64 (c.cachedBytes + 2 ^ 64 - e.size)
              freePool := rest } := by
        intro heq
        rw [heq]
        rcases ih with hnone | ⟨e, node, rest, he, hrest, hfound⟩
        · exact Or.inl hnone
        · exact Or.inr ⟨e, node, rest, List.mem_cons_of_mem _ he,
            List.subset_cons_of_subset _ hrest, hfound⟩
      cases hcur : c.cache it.page with
      | none => exact hskip (by rw [cacheFree, hcur])
      | some cur =>
          by_cases hts : cur.ts = it.ts
          · refine Or.inr ⟨it, cur, pool, List.mem_cons_self .., List.subset_cons_self ..,
              hcur, hts, ?_⟩
            simp [cacheFree, hcur, hts]
          · exact hskip (by simp [cacheFree, hcur, hts])

/-- What `load_and_swap` does to the slots. -/
theorem loadAndSwap_cases {c c' : LruCache V} {p : PageId} {bytesSize : Nat} {inserted : V}
    {r : Option (Swap V)} (h : c.loadAndSwap p bytesSize inserted = some (c', r)) :
    (∃ node, c.cache p = some node ∧ r = some ⟨none, node.value⟩ ∧ c' = { c with
      cache := Function.update c.cache p (some { node with
        readCnt := wrap64 (node.readCnt + 1)
        ts := wrap64 (c.timestamp + 1) })
      timestamp := wrap64 (c.timestamp + 1) }) ∨
    (c.cache p = none ∧ r = none ∧ c' = { c with freePool := [] }) ∨
    (c.cache p = none ∧ r = some ⟨none, inserted⟩ ∧ c' = { c with
      cache := Function.update c.cache p (some ⟨wrap64 (c.timestamp + 1), 1, inserted, bytesSize⟩)
      cachedBytes := wrap64 (c.cachedBytes + bytesSize)
      timestamp := wrap64 (c.timestamp + 1) }) ∨
    (∃ e victim rest, c.cache p = none ∧ e ∈ c.freePool ∧ rest ⊆ c.freePool ∧
      c.cache e.page = some victim ∧ victim.ts = e.ts ∧
      r = some ⟨some (e.page, victim.value), inserted⟩ ∧ c' = { c with
        cache := Function.update (Function.update c.cache e.page none) p
          (some ⟨wrap64 (c.timestamp + 1), 1, inserted, bytesSize⟩)
        cachedBytes := wrap64 (c.cachedBytes + 2 ^ 64 - e.size)
        timestamp := wrap64 (c.timestamp + 1)
        freePool := rest }) := by
  unfold loadAndSwap at h
  split at h
  case isFalse => cases h
  cases hp : c.cache p with
  | some node =>
      simp only [hp, Option.some.injEq, Prod.mk.injEq] at h
      obtain ⟨rfl, rfl⟩ := h
      exact Or.inl ⟨node, rfl, rfl, rfl⟩
  | none =>
      right
      simp only [hp] at h
      split at h
      · rcases cacheFree_cases c c.freePool with ⟨hvictim, hfree⟩ |
          ⟨e, node, rest, he, hrest, hnode, hts, hvictim, hfree⟩
        · rw [show c.cacheFree c.freePool = (_, _) from Prod.ext hfree hvictim] at h
          cases h
          exact Or.inl ⟨rfl, rfl, rfl⟩
        · rw [show c.cacheFree c.freePool = (_, _) from Prod.ext hfree hvictim] at h
          cases h
          exact Or.inr (Or.inr ⟨e, node, rest, rfl, he, hrest, hnode, hts, rfl, rfl⟩)
      · cases h
        exact Or.inr (Or.inl ⟨rfl, rfl, rfl⟩)

/-- What `load_and_swap` does to the values. -/
theorem loadAndSwap_values {c c' : LruCache V} {p : PageId} {bytesSize : Nat} {inserted : V}
    {r : Option (Swap V)} (h : c.loadAndSwap p bytesSize inserted = some (c', r)) :
    (∃ x, c.value p = some x ∧ r = some ⟨none, x⟩ ∧ ∀ q, c'.value q = c.value q) ∨
    (c.value p = none ∧ r = none ∧ ∀ q, c'.value q = c.value q) ∨
    (c.value p = none ∧ r = some ⟨none, inserted⟩ ∧
      ∀ q, c'.value q = if q = p then some inserted else c.value q) ∨
    (∃ v x, c.value p = none ∧ v ≠ p ∧ c.value v = some x ∧ r = some ⟨some (v, x), inserted⟩ ∧
      ∀ q, c'.value q = if q = p then some inserted else if q = v then none else c.value q) := by
  rcases loadAndSwap_cases h with ⟨node, hnode, rfl, rfl⟩ | ⟨hnone, rfl, rfl⟩ | ⟨hnone, rfl, rfl⟩ |
    ⟨e, victim, rest, hnone, -, -, hvictim, -, rfl, rfl⟩
  · refine Or.inl ⟨node.value, by simp [value, hnode], rfl, fun q => ?_⟩
    by_cases hq : q = p
    · subst hq
      simp [value, hnode]
    · simp [value, hq]
  · exact Or.inr (Or.inl ⟨by simp [value, hnone], rfl, fun _ => rfl⟩)
  · refine Or.inr (Or.inr (Or.inl ⟨by simp [value, hnone], rfl, fun q => ?_⟩))
    by_cases hq : q = p
    · subst hq
      simp [value]
    · simp [value, hq]
  · have hne : e.page ≠ p := by
      rintro rfl
      rw [hnone] at hvictim
      cases hvictim
    refine Or.inr (Or.inr (Or.inr ⟨e.page, victim.value, by simp [value, hnone], hne,
      by simp [value, hvictim], rfl, fun q => ?_⟩))
    by_cases hq : q = p
    · subst hq
      simp [value]
    · by_cases hq' : q = e.page
      · subst hq'
        simp [value, hne]
      · simp [value, hq, hq']

/-- `try_load` answers with the value of the slot and changes none. -/
theorem tryLoad_values {c c' : LruCache V} {p : PageId} {r : Option V}
    (h : c.tryLoad p = some (c', r)) : r = c.value p ∧ ∀ q, c'.value q = c.value q := by
  by_cases hrange : c.InRange p
  · obtain ⟨c₁, hload, hvalues, -⟩ := tryLoad_eq hrange
    rw [hload] at h
    cases h
    exact ⟨rfl, hvalues⟩
  · rw [tryLoad, if_neg hrange] at h
    cases h

theorem loadAndSwap_m {c c' : LruCache V} {p : PageId} {bytesSize : Nat} {inserted : V}
    {r : Option (Swap V)} (h : c.loadAndSwap p bytesSize inserted = some (c', r)) :
    c'.m = c.m := by
  rcases loadAndSwap_cases h with ⟨node, -, -, rfl⟩ | ⟨-, -, rfl⟩ | ⟨-, -, rfl⟩ |
    ⟨e, victim, rest, -, -, -, -, -, -, rfl⟩ <;> rfl

theorem loadAndSwap_ne_none {c : LruCache V} {p : PageId} (h : c.InRange p) (bytesSize : Nat)
    (inserted : V) : c.loadAndSwap p bytesSize inserted ≠ none := by
  rw [loadAndSwap, if_pos h]
  cases c.cache p with
  | some node => exact Option.some_ne_none _
  | none =>
      simp only
      split
      · split <;> exact Option.some_ne_none _
      · exact Option.some_ne_none _

/-! ### Pins -/

/-- The cache's counts are the pins that are held: every page counts its own, an
    entry of `free_pool` that still counts names a page without a pin, and no
    counter has wrapped. -/
structure Accounts (c : LruCache V) (pins : PageId → Nat) : Prop where
  clock : c.timestamp < 2 ^ 64
  counted : ∀ p node, c.cache p = some node → node.readCnt = pins p
  absent : ∀ p, c.cache p = none → pins p = 0
  bounded : ∀ p, pins p ≤ c.timestamp
  stamped : ∀ p node, c.cache p = some node → node.ts ≤ c.timestamp
  visited : ∀ e ∈ c.freePool, e.ts ≤ c.timestamp
  unpinned : ∀ e ∈ c.freePool, ∀ node, c.cache e.page = some node → node.ts = e.ts → pins e.page = 0

theorem accounts_init (bucketCnt partCnt siz : Nat) :
    (init bucketCnt partCnt siz : LruCache V).Accounts (fun _ => 0) where
  clock := Nat.two_pow_pos 64
  counted := by
    intro p node h
    cases h
  absent := fun _ _ => rfl
  bounded := fun _ => Nat.zero_le _
  stamped := by
    intro p node h
    cases h
  visited := by
    intro e he
    cases he
  unpinned := by
    intro e he
    cases he

theorem wrap64_of_lt {n : Nat} (h : n < 2 ^ 64) : wrap64 n = n := Nat.mod_eq_of_lt h

/-- What holds of a slot that is filled and of the other pages. -/
theorem resident_update {cache : PageId → Option (CacheNode V)} {p : PageId} {x : CacheNode V}
    {P : PageId → CacheNode V → Prop} (hp : P p x)
    (hothers : ∀ q node, q ≠ p → cache q = some node → P q node) :
    ∀ q node, Function.update cache p (some x) q = some node → P q node := by
  intro q node hq
  by_cases hqp : q = p
  · subst hqp
    rw [Function.update_self, Option.some.injEq] at hq
    exact hq ▸ hp
  · rw [Function.update_of_ne hqp] at hq
    exact hothers q node hqp hq

/-- What holds of the pages that are left. -/
theorem resident_evict {cache : PageId → Option (CacheNode V)} {p : PageId}
    {P : PageId → CacheNode V → Prop} (hothers : ∀ q node, q ≠ p → cache q = some node → P q node) :
    ∀ q node, Function.update cache p none q = some node → P q node := by
  intro q node hq
  by_cases hqp : q = p
  · subst hqp
    rw [Function.update_self] at hq
    cases hq
  · rw [Function.update_of_ne hqp] at hq
    exact hothers q node hqp hq

/-- Pinning a page: it gets a time stamp that no entry has. -/
theorem Accounts.pin {c : LruCache V} {pins : PageId → Nat} (h : c.Accounts pins) {p : PageId}
    {node : CacheNode V} {pool : List CacheVisit} {cachedBytes : Nat}
    (hclock : c.timestamp + 1 < 2 ^ 64) (hcount : node.readCnt = pins p + 1)
    (hts : node.ts = c.timestamp + 1) (hpool : pool ⊆ c.freePool) :
    LruCache.Accounts { c with
      cache := Function.update c.cache p (some node)
      cachedBytes := cachedBytes
      timestamp := c.timestamp + 1
      freePool := pool } (Function.update pins p (pins p + 1)) where
  clock := hclock
  counted := by
    apply resident_update
    · rw [Function.update_self, hcount]
    · intro q node' hqp hq
      rw [Function.update_of_ne hqp]
      exact h.counted q node' hq
  absent := by
    intro q hq
    by_cases hqp : q = p
    · subst hqp
      simp at hq
    · simp only [Function.update_of_ne hqp] at hq ⊢
      exact h.absent q hq
  bounded := by
    intro q
    by_cases hqp : q = p
    · subst hqp
      simpa using h.bounded q
    · simpa [Function.update_of_ne hqp] using Nat.le_succ_of_le (h.bounded q)
  stamped := resident_update (Nat.le_of_eq hts) fun q node' _ hq =>
    Nat.le_succ_of_le (h.stamped q node' hq)
  visited := fun e he => Nat.le_succ_of_le (h.visited e (hpool he))
  unpinned := by
    intro e he node' hnode' hts'
    by_cases hqp : e.page = p
    · -- the new time stamp is later than that of every entry
      rw [hqp] at hnode'
      simp only [Function.update_self, Option.some.injEq] at hnode'
      have hle := h.visited e (hpool he)
      rw [← hts', ← hnode', hts] at hle
      omega
    · simp only [Function.update_of_ne hqp] at hnode' ⊢
      exact h.unpinned e (hpool he) node' hnode' hts'

/-- Taking out a page without a pin. -/
theorem Accounts.evict {c : LruCache V} {pins : PageId → Nat} (h : c.Accounts pins) {v : PageId}
    (hpins : pins v = 0) {pool : List CacheVisit} (hpool : pool ⊆ c.freePool) :
    LruCache.Accounts
      { c with cache := Function.update c.cache v none, freePool := pool } pins where
  clock := h.clock
  counted := resident_evict fun q node _ => h.counted q node
  absent := by
    intro q hq
    by_cases hqv : q = v
    · exact hqv ▸ hpins
    · simp only [Function.update_of_ne hqv] at hq
      exact h.absent q hq
  bounded := h.bounded
  stamped := resident_evict fun q node _ => h.stamped q node
  visited := fun e he => h.visited e (hpool he)
  unpinned := by
    intro e he node hnode hts
    by_cases hqv : e.page = v
    · exact hqv ▸ hpins
    · simp only [Function.update_of_ne hqv] at hnode
      exact h.unpinned e (hpool he) node hnode hts

theorem Accounts.pool {c : LruCache V} {pins : PageId → Nat} (h : c.Accounts pins)
    {pool : List CacheVisit} (hpool : pool ⊆ c.freePool) :
    LruCache.Accounts { c with freePool := pool } pins :=
  ⟨h.clock, h.counted, h.absent, h.bounded, h.stamped, fun e he => h.visited e (hpool he),
    fun e he => h.unpinned e (hpool he)⟩

/-- A hit adds a pin. -/
theorem Accounts.tryLoad {c c' : LruCache V} {pins : PageId → Nat} (h : c.Accounts pins)
    {p : PageId} {x : V} (hclock : c.timestamp + 1 < 2 ^ 64)
    (hload : c.tryLoad p = some (c', some x)) :
    c'.Accounts (Function.update pins p (pins p + 1)) := by
  unfold LruCache.tryLoad at hload
  split at hload
  case isFalse => cases hload
  cases hp : c.cache p with
  | none =>
      rw [hp] at hload
      cases hload
  | some node =>
      rw [hp] at hload
      cases hload
      have hcount := h.counted p node hp
      have hbound := h.bounded p
      have hstamp := h.stamped p node hp
      simp only [wrap64_of_lt hclock]
      refine h.pin hclock ?_ ?_ (List.Subset.refl _)
      · rw [hcount, wrap64_of_lt (by omega)]
      · exact Nat.max_eq_right (by omega)

/-- `load_and_swap` adds a pin to the page it returns, and what it evicts has none. -/
theorem Accounts.loadAndSwap {c c' : LruCache V} {pins : PageId → Nat} (h : c.Accounts pins)
    {p : PageId} {bytesSize : Nat} {inserted : V} {swap : Swap V}
    (hclock : c.timestamp + 1 < 2 ^ 64)
    (hload : c.loadAndSwap p bytesSize inserted = some (c', some swap)) :
    c'.Accounts (Function.update pins p (pins p + 1)) ∧
      ∀ v x, swap.swapped = some (v, x) → pins v = 0 := by
  rcases loadAndSwap_cases hload with ⟨node, hnode, hr, rfl⟩ | ⟨-, hr, -⟩ | ⟨hnone, hr, rfl⟩ |
    ⟨e, victim, rest, hnone, he, hrest, hvictim, hts, hr, rfl⟩ <;> cases hr
  all_goals simp only [wrap64_of_lt hclock]
  · have hcount := h.counted p node hnode
    have hbound := h.bounded p
    refine ⟨h.pin hclock ?_ rfl (List.Subset.refl _), ?_⟩
    · simp only [hcount, wrap64_of_lt (show pins p + 1 < 2 ^ 64 by omega)]
    · intro v x hx
      cases hx
  · refine ⟨h.pin hclock (by rw [h.absent p hnone]) rfl (List.Subset.refl _), ?_⟩
    intro v x hx
    cases hx
  · have hpins := h.unpinned e he victim hvictim hts
    constructor
    · exact (h.evict hpins hrest).pin hclock (by rw [h.absent p hnone]) rfl (List.Subset.refl _)
    · intro v x hx
      cases hx
      exact hpins

/-- A miss and an `Abort` change no pin. -/
theorem Accounts.tryLoad_miss {c c' : LruCache V} {pins : PageId → Nat} (h : c.Accounts pins)
    {p : PageId} (hload : c.tryLoad p = some (c', none)) : c'.Accounts pins := by
  unfold LruCache.tryLoad at hload
  split at hload
  case isFalse => cases hload
  cases hp : c.cache p with
  | none =>
      rw [hp] at hload
      cases hload
      exact h
  | some node =>
      rw [hp] at hload
      cases hload

theorem Accounts.loadAndSwap_abort {c c' : LruCache V} {pins : PageId → Nat} (h : c.Accounts pins)
    {p : PageId} {bytesSize : Nat} {inserted : V}
    (hload : c.loadAndSwap p bytesSize inserted = some (c', none)) : c'.Accounts pins := by
  rcases loadAndSwap_cases hload with ⟨node, hnode, hr, rfl⟩ | ⟨-, -, rfl⟩ | ⟨hnone, hr, rfl⟩ |
    ⟨e, victim, rest, hnone, he, hrest, hvictim, hts, hr, rfl⟩
  · cases hr
  · exact h.pool (List.nil_subset _)
  · cases hr
  · cases hr

/-- A release takes back one pin. -/
theorem Accounts.release {c : LruCache V} {pins : PageId → Nat} (h : c.Accounts pins) {p : PageId}
    (hpinned : 0 < pins p) : (c.release p).Accounts (Function.update pins p (pins p - 1)) := by
  have hbound := h.bounded p
  have hclock := h.clock
  cases hp : c.cache p with
  | none =>
      have := h.absent p hp
      omega
  | some node =>
      have hcount := h.counted p node hp
      have hdec : decrement node.readCnt = pins p - 1 := by
        rw [decrement, hcount, wrap64]
        omega
      rw [LruCache.release, hp]
      simp only [hdec]
      refine ⟨hclock, ?_, ?_, ?_, ?_, ?_, ?_⟩
      · apply resident_update
        · rw [Function.update_self]
        · intro q node' hqp hq
          rw [Function.update_of_ne hqp]
          exact h.counted q node' hq
      · intro q hq
        by_cases hqp : q = p
        · subst hqp
          simp at hq
        · simp only [Function.update_of_ne hqp] at hq ⊢
          exact h.absent q hq
      · intro q
        have := h.bounded q
        by_cases hqp : q = p
        · subst hqp
          simp only [Function.update_self]
          omega
        · simpa [Function.update_of_ne hqp] using this
      · exact resident_update (h.stamped p node hp) fun q node' _ => h.stamped q node'
      · intro e he
        split at he
        · rcases List.mem_append.mp he with he | he
          · exact h.visited e he
          · rw [List.mem_singleton.mp he]
            exact h.stamped p node hp
        · exact h.visited e he
      · intro e he node' hnode' hts'
        by_cases hqp : e.page = p
        · simp only [hqp, Function.update_self, Option.some.injEq] at hnode' ⊢
          subst hnode'
          -- an older entry with this time stamp would name a page without a pin
          split at he
          · assumption
          · have := h.unpinned e he node (hqp ▸ hp) hts'
            rw [hqp] at this
            omega
        · have hold : e ∈ c.freePool := by
            split at he
            · rcases List.mem_append.mp he with he | he
              · exact he
              · rw [List.mem_singleton.mp he] at hqp
                exact absurd rfl hqp
            · exact he
          simp only [Function.update_of_ne hqp] at hnode' ⊢
          exact h.unpinned e hold node' hnode' hts'

end LruCache

end VeriTxn
