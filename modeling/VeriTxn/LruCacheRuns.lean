import VeriTxn.LruCache
import VeriTxn.Transition
import Mathlib.Algebra.BigOperators.Group.Finset.Basic
import Mathlib.Data.Finset.Prod

/-!
# Runs of the page cache

The cache alone, under any sequence of `load_and_swap`, `try_load` and `release`
calls from the empty cache of `init`: which page an eviction removes, and whether
`_cached_bytes` is what the resident pages take.
-/

namespace VeriTxn.LruCache

open Transition

variable {V : Type}

/-- A call of the cache. -/
inductive Call (V : Type) where
  | loadAndSwap (p : PageId) (bytesSize : Nat) (inserted : V)
  | tryLoad (p : PageId)
  | release (p : PageId)

/-- One call; `none` is a failed assertion. -/
def step (c : LruCache V) : Call V → Option (LruCache V)
  | .loadAndSwap p bytesSize inserted => (c.loadAndSwap p bytesSize inserted).map Prod.fst
  | .tryLoad p => (c.tryLoad p).map Prod.fst
  | .release p => some (c.release p)

/-- The test of `load_and_swap` for space. -/
def Full (c : LruCache V) (bytesSize : Nat) : Prop := wrap64 (c.cachedBytes + bytesSize) > c.limit

instance (c : LruCache V) (bytesSize : Nat) : Decidable (c.Full bytesSize) :=
  inferInstanceAs (Decidable (_ > _))

/-! ### The page that `cache_free` removes -/

/-- The entry of `free_pool` still counts. -/
def Live (c : LruCache V) (e : CacheVisit) : Prop :=
  ∃ node, c.cache e.page = some node ∧ node.ts = e.ts

/-- The first entry that still counts, with its page and the entries after it. -/
def victim (c : LruCache V) : List CacheVisit → Option (CacheVisit × CacheNode V × List CacheVisit)
  | [] => none
  | it :: pool =>
      match c.cache it.page with
      | none => victim c pool
      | some cur => if cur.ts ≠ it.ts then victim c pool else some (it, cur, pool)

theorem victim_none {c : LruCache V} {pool : List CacheVisit} (h : c.victim pool = none) :
    ∀ e ∈ pool, ¬ c.Live e := by
  induction pool with
  | nil =>
      intro e he
      cases he
  | cons it pool ih =>
      intro e he
      rintro ⟨node, hnode, hts⟩
      rw [victim] at h
      rcases List.mem_cons.mp he with rfl | he
      · rw [hnode] at h
        simp [hts] at h
      · refine ih ?_ e he ⟨node, hnode, hts⟩
        split at h
        · exact h
        · split at h
          · exact h
          · cases h

/-- The entries before the victim's do not count. -/
theorem victim_some {c : LruCache V} {pool rest : List CacheVisit} {it : CacheVisit}
    {cur : CacheNode V} (h : c.victim pool = some (it, cur, rest)) :
    c.cache it.page = some cur ∧ cur.ts = it.ts ∧
      ∃ stale, pool = stale ++ it :: rest ∧ ∀ e ∈ stale, ¬ c.Live e := by
  induction pool with
  | nil => cases h
  | cons e pool ih =>
      have hskip : ¬ c.Live e → c.victim pool = some (it, cur, rest) →
          c.cache it.page = some cur ∧ cur.ts = it.ts ∧
            ∃ stale, e :: pool = stale ++ it :: rest ∧ ∀ e ∈ stale, ¬ c.Live e := by
        intro hdead hrest
        obtain ⟨hcur, hts, stale, rfl, hstale⟩ := ih hrest
        refine ⟨hcur, hts, e :: stale, rfl, ?_⟩
        intro e' he'
        rcases List.mem_cons.mp he' with rfl | he'
        · exact hdead
        · exact hstale e' he'
      rw [victim] at h
      split at h
      · next hnone =>
          refine hskip ?_ h
          rintro ⟨node, hnode, -⟩
          rw [hnone] at hnode
          cases hnode
      · next node hnode =>
          split at h
          · next hts =>
              refine hskip ?_ h
              rintro ⟨node', hnode', hts'⟩
              rw [hnode] at hnode'
              cases hnode'
              exact hts hts'
          · next hts =>
              cases h
              exact ⟨hnode, not_not.mp hts, [], rfl, fun e he => absurd he List.not_mem_nil⟩

theorem cacheFree_eq (c : LruCache V) (pool : List CacheVisit) :
    c.cacheFree pool = match c.victim pool with
      | none => ({ c with freePool := [] }, none)
      | some (it, cur, rest) => ({ c with
          cache := Function.update c.cache it.page none
          cachedBytes := wrap64 (c.cachedBytes + 2 ^ 64 - it.size)
          freePool := rest }, some (it.page, cur.value)) := by
  induction pool with
  | nil => rfl
  | cons it pool ih =>
      rw [cacheFree, victim]
      cases c.cache it.page with
      | none => exact ih
      | some cur =>
          by_cases hts : cur.ts = it.ts
          · simp [hts]
          · simp [hts, ih]

/-- `load_and_swap` of a page that is not resident. -/
theorem loadAndSwap_miss {c : LruCache V} {p : PageId} (hrange : c.InRange p)
    (hmiss : c.cache p = none) (bytesSize : Nat) (inserted : V) :
    c.loadAndSwap p bytesSize inserted = some (
      if c.Full bytesSize then
        match c.victim c.freePool with
        | none => ({ c with freePool := [] }, none)
        | some (it, cur, rest) => ({ c with
            cache := Function.update (Function.update c.cache it.page none) p
              (some ⟨wrap64 (c.timestamp + 1), 1, inserted, bytesSize⟩)
            cachedBytes := wrap64 (c.cachedBytes + 2 ^ 64 - it.size)
            timestamp := wrap64 (c.timestamp + 1)
            freePool := rest }, some ⟨some (it.page, cur.value), inserted⟩)
      else ({ c with
        cache := Function.update c.cache p
          (some ⟨wrap64 (c.timestamp + 1), 1, inserted, bytesSize⟩)
        cachedBytes := wrap64 (c.cachedBytes + bytesSize)
        timestamp := wrap64 (c.timestamp + 1) }, some ⟨none, inserted⟩)) := by
  rw [loadAndSwap, if_pos hrange]
  simp only [hmiss, cacheFree_eq]
  by_cases hfull : c.Full bytesSize
  · rw [if_pos hfull, if_pos (show wrap64 _ > _ from hfull)]
    cases c.victim c.freePool with
    | none => rfl
    | some v => rfl
  · rw [if_neg hfull, if_neg (show ¬ wrap64 _ > _ from hfull)]

/-! ### The bytes of the resident pages -/

section Bytes

variable {c c' d : LruCache V}

def bytesIn : Option (CacheNode V) → Nat
  | none => 0
  | some node => node.size

/-- The sizes of the resident pages, added up. -/
def residentBytes (c : LruCache V) : Nat :=
  ∑ p ∈ Finset.range c.n ×ˢ Finset.range c.m, bytesIn (c.cache p)

/-- `_cached_bytes` is the sum of the sizes, and at most `_limit` if every page fits. -/
def BytesExact (c : LruCache V) : Prop :=
  c.cachedBytes = c.residentBytes ∧
    ((∀ p node, c.cache p = some node → node.size ≤ c.limit) → c.cachedBytes ≤ c.limit)

/-- The call evicts a page and takes more bytes off `_cached_bytes` than there are. -/
def Underflows (c : LruCache V) : Call V → Prop
  | .loadAndSwap p bytesSize _ => c.InRange p ∧ c.cache p = none ∧ c.Full bytesSize ∧
      ∃ it cur rest, c.victim c.freePool = some (it, cur, rest) ∧ c.cachedBytes < it.size
  | _ => False

/-- The call neither overflows `_cached_bytes` nor evicts a page, unless the bytes of the
    victim are those taken off for it and those of the new page. -/
def KeepsBytes (c : LruCache V) : Call V → Prop
  | .loadAndSwap p bytesSize _ => c.InRange p → c.cache p = none →
      if c.Full bytesSize then
        ∀ it cur rest, c.victim c.freePool = some (it, cur, rest) → cur.size = it.size + bytesSize
      else c.cachedBytes + bytesSize < 2 ^ 64
  | _ => True

/-- What holds as long as every call keeps the bytes. -/
structure Counted (c : LruCache V) : Prop where
  inRange : ∀ p node, c.cache p = some node → c.InRange p
  sum : c.cachedBytes = c.residentBytes
  fits : c.cachedBytes ≤ c.limit
  small : c.cachedBytes < 2 ^ 64

theorem residentBytes_update {p : PageId} (hp : c.InRange p) {x : Option (CacheNode V)}
    (hcache : d.cache = Function.update c.cache p x) (hn : d.n = c.n) (hm : d.m = c.m) :
    d.residentBytes + bytesIn (c.cache p) = c.residentBytes + bytesIn x := by
  have hmem : p ∈ Finset.range c.n ×ˢ Finset.range c.m :=
    Finset.mem_product.mpr ⟨Finset.mem_range.mpr hp.1, Finset.mem_range.mpr hp.2⟩
  have hrest : ∑ q ∈ (Finset.range c.n ×ˢ Finset.range c.m).erase p, bytesIn (d.cache q) =
      ∑ q ∈ (Finset.range c.n ×ˢ Finset.range c.m).erase p, bytesIn (c.cache q) := by
    refine Finset.sum_congr rfl fun q hq => ?_
    rw [hcache, Function.update_of_ne (Finset.ne_of_mem_erase hq)]
  have hnew : d.residentBytes = bytesIn x +
      ∑ q ∈ (Finset.range c.n ×ˢ Finset.range c.m).erase p, bytesIn (d.cache q) := by
    rw [residentBytes, hn, hm, ← Finset.add_sum_erase _ _ hmem, hcache, Function.update_self]
  have hold : c.residentBytes = bytesIn (c.cache p) +
      ∑ q ∈ (Finset.range c.n ×ˢ Finset.range c.m).erase p, bytesIn (c.cache q) := by
    rw [residentBytes, ← Finset.add_sum_erase _ _ hmem]
  omega

/-- A change of a resident page that leaves its size as it is. -/
theorem Counted.touch (h : c.Counted) {p : PageId} {node node' : CacheNode V}
    (hp : c.cache p = some node) (hcache : c'.cache = Function.update c.cache p (some node'))
    (hsize : node'.size = node.size) (hn : c'.n = c.n) (hm : c'.m = c.m)
    (hbytes : c'.cachedBytes = c.cachedBytes) (hlimit : c'.limit = c.limit) : c'.Counted := by
  have hrange := h.inRange p node hp
  have hsum := residentBytes_update hrange hcache hn hm
  rw [hp] at hsum
  simp only [bytesIn, hsize] at hsum
  refine ⟨?_, ?_, ?_, hbytes ▸ h.small⟩
  · intro q node'' hq
    rw [InRange, hn, hm]
    rw [hcache] at hq
    by_cases hqp : q = p
    · exact hqp ▸ hrange
    · rw [Function.update_of_ne hqp] at hq
      exact h.inRange q node'' hq
  · have := h.sum
    omega
  · rw [hbytes, hlimit]
    exact h.fits

theorem Counted.exact (h : c.Counted) : c.BytesExact := ⟨h.sum, fun _ => h.fits⟩

theorem Counted.release (h : c.Counted) (p : PageId) : (c.release p).Counted := by
  unfold LruCache.release
  split
  · exact h
  · next node hp => exact h.touch hp rfl rfl rfl rfl rfl rfl

theorem Counted.tryLoad (h : c.Counted) {p : PageId} {r : Option V}
    (hload : c.tryLoad p = some (c', r)) : c'.Counted := by
  unfold LruCache.tryLoad at hload
  split at hload
  case isFalse => cases hload
  split at hload
  · cases hload
    exact h
  · next node hp =>
      cases hload
      exact h.touch hp rfl rfl rfl rfl rfl rfl

theorem Counted.loadAndSwap_hit (h : c.Counted) {p : PageId} {node : CacheNode V}
    (hp : c.cache p = some node) {bytesSize : Nat} {inserted : V} {r : Option (Swap V)}
    (hload : c.loadAndSwap p bytesSize inserted = some (c', r)) : c'.Counted := by
  rcases loadAndSwap_cases hload with ⟨node', hnode', -, rfl⟩ | ⟨hnone, -⟩ | ⟨hnone, -⟩ |
    ⟨e, cur, rest, hnone, -⟩
  · exact h.touch hnode' rfl rfl rfl rfl rfl rfl
  all_goals
    rw [hp] at hnone
    cases hnone

/-- A page that takes an empty slot. -/
theorem Counted.insert (h : c.Counted) {p : PageId} (hrange : c.InRange p) (hmiss : c.cache p = none)
    {node : CacheNode V} (hcache : d.cache = Function.update c.cache p (some node))
    (hn : d.n = c.n) (hm : d.m = c.m) :
    (∀ q node', d.cache q = some node' → d.InRange q) ∧
      d.residentBytes = c.residentBytes + node.size := by
  constructor
  · intro q node' hq
    rw [InRange, hn, hm]
    rw [hcache] at hq
    by_cases hqp : q = p
    · exact hqp ▸ hrange
    · rw [Function.update_of_ne hqp] at hq
      exact h.inRange q node' hq
  · have hsum := residentBytes_update hrange hcache hn hm
    rw [hmiss] at hsum
    exact hsum

/-- The bytes after a page has taken the place of a victim. -/
theorem Counted.swap (h : c.Counted) {p v : PageId} (hrange : c.InRange p)
    (hmiss : c.cache p = none) {cur node : CacheNode V} (hv : c.cache v = some cur)
    (hcache : d.cache = Function.update (Function.update c.cache v none) p (some node))
    (hn : d.n = c.n) (hm : d.m = c.m) :
    (∀ q node', d.cache q = some node' → d.InRange q) ∧
      d.residentBytes + cur.size = c.residentBytes + node.size := by
  have hne : p ≠ v := by
    rintro rfl
    rw [hmiss] at hv
    cases hv
  have hout := residentBytes_update (d := { c with cache := Function.update c.cache v none })
    (h.inRange v cur hv) rfl rfl rfl
  have hin := residentBytes_update (c := { c with cache := Function.update c.cache v none })
    (show c.InRange p from hrange) hcache hn hm
  rw [hv] at hout
  simp only [Function.update_of_ne hne, hmiss, bytesIn] at hout hin
  refine ⟨?_, by omega⟩
  intro q node' hq
  rw [InRange, hn, hm]
  rw [hcache] at hq
  by_cases hqp : q = p
  · exact hqp ▸ hrange
  · rw [Function.update_of_ne hqp] at hq
    by_cases hqv : q = v
    · rw [hqv, Function.update_self] at hq
      cases hq
    · rw [Function.update_of_ne hqv] at hq
      exact h.inRange q node' hq

theorem bytesIn_le_residentBytes (h : c.Counted) {p : PageId} {node : CacheNode V}
    (hp : c.cache p = some node) : node.size ≤ c.residentBytes := by
  have hout := residentBytes_update (d := { c with cache := Function.update c.cache p none })
    (h.inRange p node hp) rfl rfl rfl
  rw [hp] at hout
  simp only [bytesIn] at hout
  omega

/-- An eviction keeps the bytes exactly if the new page takes what is left of the victim. -/
theorem Counted.evict_iff (h : c.Counted) {it : CacheVisit} {cur : CacheNode V} {bytesSize : Nat}
    (hcur : c.cache it.page = some cur)
    (hbytes : c'.residentBytes + cur.size = c.residentBytes + bytesSize)
    (hcached : c'.cachedBytes = wrap64 (c.cachedBytes + 2 ^ 64 - it.size))
    (hlimit : c'.limit = c.limit) :
    (it.size ≤ c.cachedBytes ∧ c'.BytesExact) ↔ cur.size = it.size + bytesSize := by
  have hsum := h.sum
  have hsmall := h.small
  have hfits := h.fits
  have hle := bytesIn_le_residentBytes h hcur
  have hwrap : it.size ≤ c.cachedBytes → c'.cachedBytes = c.cachedBytes - it.size := by
    intro hle'
    rw [hcached, wrap64]
    omega
  constructor
  · rintro ⟨hle', hexact, -⟩
    have := hwrap hle'
    omega
  · intro hsize
    have := hwrap (by omega)
    exact ⟨by omega, by omega, fun _ => by omega⟩

/-- A page that is not resident, in each case of `load_and_swap`. -/
theorem Counted.loadAndSwap_miss_iff (h : c.Counted) {p : PageId} (hrange : c.InRange p)
    (hmiss : c.cache p = none) (bytesSize : Nat) (inserted : V) :
    (¬ c.Underflows (.loadAndSwap p bytesSize inserted) ∧
      ∀ c', c.step (.loadAndSwap p bytesSize inserted) = some c' → c'.BytesExact) ↔
    c.KeepsBytes (.loadAndSwap p bytesSize inserted) := by
  have hload := loadAndSwap_miss hrange hmiss bytesSize inserted
  have hsum := h.sum
  simp only [Underflows, KeepsBytes, step, hload, Option.map_some, Option.some.injEq, hrange, hmiss,
    true_and, forall_true_left, forall_eq']
  by_cases hfull : c.Full bytesSize
  · simp only [hfull, true_and]
    cases hvictim : c.victim c.freePool with
    | none =>
        refine ⟨fun _ it cur rest heq => ?_, fun _ => ⟨?_, ?_⟩⟩
        · cases heq
        · rintro ⟨it, cur, rest, heq, -⟩
          cases heq
        · exact ⟨hsum, fun _ => h.fits⟩
    | some found =>
        obtain ⟨it, cur, rest⟩ := found
        obtain ⟨hcur, -, -⟩ := victim_some hvictim
        have hswap := h.swap (d := { c with
          cache := Function.update (Function.update c.cache it.page none) p
            (some ⟨wrap64 (c.timestamp + 1), 1, inserted, bytesSize⟩)
          cachedBytes := wrap64 (c.cachedBytes + 2 ^ 64 - it.size)
          timestamp := wrap64 (c.timestamp + 1)
          freePool := rest }) hrange hmiss hcur rfl rfl rfl
        have hiff := h.evict_iff hcur hswap.2 rfl rfl
        constructor
        · rintro ⟨hno, hexact⟩ it' cur' rest' heq
          cases heq
          refine hiff.mp ⟨Nat.le_of_not_lt fun hlt => hno ⟨it, cur, rest, rfl, hlt⟩, hexact⟩
        · intro hsize
          obtain ⟨hle, hexact⟩ := hiff.mpr (hsize it cur rest rfl)
          refine ⟨?_, hexact⟩
          rintro ⟨it', cur', rest', heq, hlt⟩
          cases heq
          exact absurd hle (Nat.not_le.mpr hlt)
  · simp only [hfull, false_and, not_false_eq_true, true_and, if_false]
    have hinsert := h.insert (d := { c with
      cache := Function.update c.cache p
        (some ⟨wrap64 (c.timestamp + 1), 1, inserted, bytesSize⟩)
      cachedBytes := wrap64 (c.cachedBytes + bytesSize)
      timestamp := wrap64 (c.timestamp + 1) }) hrange hmiss rfl rfl rfl
    have hspace : wrap64 (c.cachedBytes + bytesSize) ≤ c.limit := Nat.le_of_not_lt hfull
    constructor
    · rintro ⟨hexact, -⟩
      rw [hinsert.2, ← hsum] at hexact
      have hlt : wrap64 (c.cachedBytes + bytesSize) < 2 ^ 64 := Nat.mod_lt _ (by decide)
      exact hexact ▸ hlt
    · intro hlt
      refine ⟨?_, fun _ => hspace⟩
      rw [hinsert.2, ← hsum]
      exact wrap64_of_lt hlt

/-- A call that keeps the bytes. -/
theorem Counted.step (h : c.Counted) {call : Call V} (hkeeps : c.KeepsBytes call)
    (hstep : c.step call = some c') : c'.Counted := by
  cases call with
  | release p =>
      cases hstep
      exact h.release p
  | tryLoad p =>
      obtain ⟨⟨c₁, r⟩, hload, rfl⟩ := Option.map_eq_some_iff.mp hstep
      exact h.tryLoad hload
  | loadAndSwap p bytesSize inserted =>
      have hrange : c.InRange p := by
        by_contra hrange
        simp [LruCache.step, LruCache.loadAndSwap, hrange] at hstep
      cases hp : c.cache p with
      | some node =>
          obtain ⟨⟨c₁, r⟩, hload, rfl⟩ := Option.map_eq_some_iff.mp hstep
          exact h.loadAndSwap_hit hp hload
      | none =>
          have hexact := ((h.loadAndSwap_miss_iff hrange hp bytesSize inserted).mpr hkeeps).2 c' hstep
          have hkeeps' := hkeeps hrange hp
          have hsum := h.sum
          have hfits := h.fits
          have hsmall := h.small
          simp only [LruCache.step, loadAndSwap_miss hrange hp, Option.map_some,
            Option.some.injEq] at hstep
          by_cases hfull : c.Full bytesSize
          · rw [if_pos hfull] at hstep hkeeps'
            cases hvictim : c.victim c.freePool with
            | none =>
                rw [hvictim] at hstep
                subst hstep
                exact ⟨h.inRange, hsum, hfits, hsmall⟩
            | some found =>
                obtain ⟨it, cur, rest⟩ := found
                obtain ⟨hcur, -, -⟩ := victim_some hvictim
                have hsize := hkeeps' it cur rest hvictim
                have hle := bytesIn_le_residentBytes h hcur
                have hcached : c'.cachedBytes = c.cachedBytes - it.size := by
                  rw [← hstep, hvictim]
                  simp only [wrap64]
                  omega
                have hlimit : c'.limit = c.limit := by rw [← hstep, hvictim]
                refine ⟨?_, hexact.1, by omega, by omega⟩
                rw [hvictim] at hstep
                exact (h.swap (d := c') hrange hp hcur (congrArg cache hstep).symm
                  (congrArg n hstep).symm (congrArg m hstep).symm).1
          · rw [if_neg hfull] at hstep
            have hspace : wrap64 (c.cachedBytes + bytesSize) ≤ c.limit := Nat.le_of_not_lt hfull
            refine ⟨?_, hexact.1, ?_, ?_⟩
            · exact (h.insert (d := c') hrange hp (congrArg cache hstep).symm
                (congrArg n hstep).symm (congrArg m hstep).symm).1
            · rw [← hstep]
              exact hspace
            · rw [← hstep]
              exact Nat.mod_lt _ (by decide)

theorem Counted.keeps_iff (h : c.Counted) (call : Call V) :
    (¬ c.Underflows call ∧ ∀ c', c.step call = some c' → c'.BytesExact) ↔ c.KeepsBytes call := by
  have hquiet : c.KeepsBytes call → ¬ c.Underflows call →
      ((¬ c.Underflows call ∧ ∀ c', c.step call = some c' → c'.BytesExact) ↔
        c.KeepsBytes call) := by
    intro hkeeps hno
    exact ⟨fun _ => hkeeps, fun _ => ⟨hno, fun c' hstep => (h.step hkeeps hstep).exact⟩⟩
  cases call with
  | release p => exact hquiet trivial id
  | tryLoad p => exact hquiet trivial id
  | loadAndSwap p bytesSize inserted =>
      by_cases hmiss : c.InRange p ∧ c.cache p = none
      · exact h.loadAndSwap_miss_iff hmiss.1 hmiss.2 bytesSize inserted
      · refine hquiet ?_ ?_
        · intro hrange hnone
          exact absurd ⟨hrange, hnone⟩ hmiss
        · rintro ⟨hrange, hnone, -⟩
          exact hmiss ⟨hrange, hnone⟩

theorem counted_init (bucketCnt partCnt siz : Nat) :
    (init bucketCnt partCnt siz : LruCache V).Counted where
  inRange := by
    intro p node hp
    cases hp
  sum := (Finset.sum_eq_zero fun p _ => rfl).symm
  fits := Nat.zero_le siz
  small := Nat.two_pow_pos 64

/-- **Cache byte accounting.**  Along a run of any calls from the empty cache, `_cached_bytes`
    is always the sum of the sizes of the resident pages, within `_limit` if every page fits,
    and never taken below zero, exactly if no call overflows it and every eviction makes place
    for a page that takes what is left of the victim's bytes: none, as long as the entry of
    `free_pool` has the victim's own size. -/
theorem cached_bytes_exact_iff (bucketCnt partCnt siz : Nat) (calls : List (Call V)) :
    ((∀ k c, runs step (init bucketCnt partCnt siz) (calls.take k) = some c → BytesExact c) ∧
      AllSteps step (fun c call => ¬ c.Underflows call) (init bucketCnt partCnt siz) calls) ↔
    AllSteps step KeepsBytes (init bucketCnt partCnt siz) calls := by
  have hinit := counted_init (V := V) bucketCnt partCnt siz
  rw [prefixes_iff_allSteps]
  have hcongr := allSteps_congr (J := Counted) (fun _ _ _ h hkeeps hstep => h.step hkeeps hstep)
    (fun _ call h => h.keeps_iff call) hinit calls
  rw [allSteps_and] at hcongr
  constructor
  · rintro ⟨⟨-, hexact⟩, hno⟩
    exact hcongr.mp ⟨hno, hexact⟩
  · intro hkeeps
    obtain ⟨hno, hexact⟩ := hcongr.mpr hkeeps
    exact ⟨⟨hinit.exact, hexact⟩, hno⟩

/-- A page of ten bytes takes the place of another in a cache of ten bytes, which then
    counts none. -/
theorem swapped_page_not_counted :
    ∃ c, runs step (init 2 1 10 : LruCache Unit)
        [.loadAndSwap (0, 0) 10 (), .release (0, 0), .loadAndSwap (0, 1) 10 ()] = some c ∧
      c.cachedBytes = 0 ∧ c.residentBytes = 10 ∧ ¬ c.BytesExact := by
  refine ⟨_, rfl, rfl, rfl, ?_⟩
  rintro ⟨hsum, -⟩
  cases hsum

end Bytes

end VeriTxn.LruCache
