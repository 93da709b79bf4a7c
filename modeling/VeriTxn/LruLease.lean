import VeriTxn.LruCache
import VeriTxn.Transition

/-!
# The leases of the page cache

`lru_cache` with its `_lease` array.  A read-only node enables the leases: `try_load` then passes
over a page whose time stamp and lease together are ahead of the clock, and `load_and_swap` is to
put the copy it gets in the place of such a page.

Both write the test out.  In `load_and_swap` the `!` stands before `_ts` alone.
-/

namespace VeriTxn

/-- `BASE_LEASE`. -/
def baseLease : Nat := 100

/-- `!` of C on an integer. -/
def lnot (n : Nat) : Nat := if n = 0 then 1 else 0

structure LeasedCache (V : Type) extends LruCache V where
  lease : PageId → Nat

namespace LeasedCache

variable {V : Type}

/-- `init`. -/
def init (bucketCnt partCnt siz : Nat) : LeasedCache V where
  toLruCache := LruCache.init bucketCnt partCnt siz
  lease := fun _ => baseLease

/-- `try_load`. -/
def tryLoad (enableLease : Bool) (c : LeasedCache V) (p : PageId) :
    Option (LeasedCache V × Option V) :=
  if c.InRange p then
    match c.cache p with
    | none => some (c, none)
    | some cur =>
        if wrap64 (cur.ts + c.lease p) > c.timestamp ∧ enableLease then some (c, none)
        else
          let timestamp := wrap64 (c.timestamp + 1)
          some ({ c with
            cache := Function.update c.cache p (some { cur with
              readCnt := wrap64 (cur.readCnt + 1)
              ts := max cur.ts timestamp })
            timestamp := timestamp }, some cur.value)
  else none

/-- `load_and_swap`.  An empty slot is filled as without leases. -/
def loadAndSwap (enableLease : Bool) (c : LeasedCache V) (p : PageId) (bytesSize : Nat)
    (inserted : V) : Option (LeasedCache V × Option (Swap V)) :=
  if c.InRange p then
    let timestamp := wrap64 (c.timestamp + 1)
    match c.cache p with
    | some node =>
        if wrap64 (lnot node.ts + c.lease p) > c.timestamp ∨ ¬ enableLease then
          -- loaded by others
          some ({ c with
            cache := Function.update c.cache p (some { node with
              readCnt := wrap64 (node.readCnt + 1)
              ts := timestamp })
            timestamp := timestamp }, some ⟨none, node.value⟩)
        else
          some ({ c with
            cache := Function.update c.cache p (some ⟨timestamp, 1, inserted, bytesSize⟩)
            timestamp := timestamp }, some ⟨some (p, node.value), inserted⟩)
    | none =>
        (c.toLruCache.loadAndSwap p bytesSize inserted).map fun r =>
          ({ c with toLruCache := r.1 }, r.2)
  else none

/-- `release`. -/
def release (c : LeasedCache V) (p : PageId) : LeasedCache V :=
  { c with toLruCache := c.toLruCache.release p }

/-- `reset_lease`. -/
def resetLease (enableLease : Bool) (c : LeasedCache V) (p : PageId) : LeasedCache V :=
  if ¬ enableLease then c else { c with lease := Function.update c.lease p baseLease }

/-- `inc_lease`. -/
def incLease (enableLease : Bool) (c : LeasedCache V) (p : PageId) : LeasedCache V :=
  if ¬ enableLease then c
  else { c with lease := Function.update c.lease p (wrap64 (c.lease p * 2)) }

/-! ### Without leases -/

/-- A node that writes has the cache without leases. -/
theorem tryLoad_disabled (c : LeasedCache V) (p : PageId) :
    c.tryLoad false p =
      (c.toLruCache.tryLoad p).map fun r => ({ c with toLruCache := r.1 }, r.2) := by
  unfold tryLoad LruCache.tryLoad
  by_cases hrange : c.InRange p
  · rw [if_pos hrange, if_pos hrange]
    cases c.cache p with
    | none => rfl
    | some cur => simp
  · rw [if_neg hrange, if_neg hrange]
    rfl

theorem loadAndSwap_disabled (c : LeasedCache V) (p : PageId) (bytesSize : Nat) (inserted : V) :
    c.loadAndSwap false p bytesSize inserted =
      (c.toLruCache.loadAndSwap p bytesSize inserted).map fun r =>
        ({ c with toLruCache := r.1 }, r.2) := by
  unfold loadAndSwap
  by_cases hrange : c.InRange p
  · rw [if_pos hrange]
    cases hp : c.cache p with
    | none => rfl
    | some node => simp [LruCache.loadAndSwap, hrange, hp]
  · rw [if_neg hrange, LruCache.loadAndSwap, if_neg hrange]
    rfl

/-! ### The two tests on a resident page -/

section Resident

variable {c : LeasedCache V} {p : PageId} {node : CacheNode V}

theorem tryLoad_refused (hrange : c.InRange p) (hnode : c.cache p = some node)
    (hlease : c.timestamp < wrap64 (node.ts + c.lease p)) : c.tryLoad true p = some (c, none) := by
  rw [tryLoad, if_pos hrange]
  simp [hnode, hlease]

theorem tryLoad_returned (hrange : c.InRange p) (hnode : c.cache p = some node)
    (hlease : ¬ c.timestamp < wrap64 (node.ts + c.lease p)) :
    ∃ c', c.tryLoad true p = some (c', some node.value) := by
  rw [tryLoad, if_pos hrange]
  simp [hnode, hlease]

theorem loadAndSwap_kept (hrange : c.InRange p) (hnode : c.cache p = some node)
    (hlease : c.timestamp < wrap64 (lnot node.ts + c.lease p)) (bytesSize : Nat) (inserted : V) :
    ∃ c', c.loadAndSwap true p bytesSize inserted = some (c', some ⟨none, node.value⟩) ∧
      c'.value p = some node.value := by
  rw [loadAndSwap, if_pos hrange]
  simp only [hnode, gt_iff_lt, hlease, true_or, if_true]
  exact ⟨_, rfl, by simp [LruCache.value]⟩

theorem loadAndSwap_replaced (hrange : c.InRange p) (hnode : c.cache p = some node)
    (hlease : ¬ c.timestamp < wrap64 (lnot node.ts + c.lease p)) (bytesSize : Nat)
    (inserted : V) :
    ∃ c', c.loadAndSwap true p bytesSize inserted =
        some (c', some ⟨some (p, node.value), inserted⟩) ∧ c'.value p = some inserted := by
  rw [loadAndSwap, if_pos hrange]
  simp only [hnode, gt_iff_lt, hlease, false_or, not_true_eq_false, if_false]
  exact ⟨_, rfl, by simp [LruCache.value]⟩

/-- What `load_and_swap` does with the resident page `old` goes with what `try_load` answers. -/
structure TestsAgree (c : LeasedCache V) (p : PageId) (old : V) (bytesSize : Nat)
    (inserted : V) : Prop where
  /-- `try_load` has returned NULL. -/
  refused : ∀ c₁, c.tryLoad true p = some (c₁, none) →
    ∃ c', c₁.loadAndSwap true p bytesSize inserted = some (c', some ⟨some (p, old), inserted⟩) ∧
      c'.value p = some inserted
  /-- `try_load` would have returned a page. -/
  returned : ∀ c₁ x, c.tryLoad true p = some (c₁, some x) →
    ∃ c', c.loadAndSwap true p bytesSize inserted = some (c', some ⟨none, old⟩) ∧
      c'.value p = some old

/-- **The lease tests agree** exactly if one of `_ts + _lease` and `!_ts + _lease` is ahead of the
    clock and the other one is not. -/
theorem testsAgree_iff (hrange : c.InRange p) (hnode : c.cache p = some node) (bytesSize : Nat)
    (inserted : V) :
    c.TestsAgree p node.value bytesSize inserted ↔
      (c.timestamp < wrap64 (node.ts + c.lease p) ↔
        wrap64 (lnot node.ts + c.lease p) ≤ c.timestamp) := by
  by_cases hload : c.timestamp < wrap64 (node.ts + c.lease p)
  · have hrefused := tryLoad_refused hrange hnode hload
    rw [iff_true_left hload, ← Nat.not_lt]
    constructor
    · intro h hswap
      obtain ⟨c₁, hc₁, -⟩ := h.refused c hrefused
      obtain ⟨c₂, hc₂, -⟩ := loadAndSwap_kept hrange hnode hswap bytesSize inserted
      rw [hc₁] at hc₂
      cases hc₂
    · intro hswap
      refine ⟨fun c₁ hc₁ => ?_, fun c₁ x hc₁ => ?_⟩
      · rw [hrefused] at hc₁
        cases hc₁
        exact loadAndSwap_replaced hrange hnode hswap bytesSize inserted
      · rw [hrefused] at hc₁
        cases hc₁
  · obtain ⟨c₀, hreturned⟩ := tryLoad_returned hrange hnode hload
    rw [iff_false_left hload, ← Nat.not_lt, not_not]
    constructor
    · intro h
      by_contra hswap
      obtain ⟨c₁, hc₁, -⟩ := h.returned c₀ node.value hreturned
      obtain ⟨c₂, hc₂, -⟩ := loadAndSwap_replaced hrange hnode hswap bytesSize inserted
      rw [hc₁] at hc₂
      cases hc₂
    · intro hswap
      refine ⟨fun c₁ hc₁ => ?_, fun _ _ _ => ?_⟩
      · rw [hreturned] at hc₁
        cases hc₁
      · exact loadAndSwap_kept hrange hnode hswap bytesSize inserted

end Resident

/-- A page with a lease of 40, at clock 50. -/
def leased (ts : Nat) : LeasedCache Nat where
  cache := Function.update (fun _ => none) (0, 0) (some ⟨ts, 1, 7, 10⟩)
  n := 1
  m := 1
  freePool := []
  cachedBytes := 10
  timestamp := 50
  limit := 100
  lease := fun _ => 40

theorem testsAgree_iff_leased :
    (leased 30).TestsAgree (0, 0) 7 10 8 ∧ ¬ (leased 1).TestsAgree (0, 0) 7 10 8 := by
  have hnode : ∀ ts, (leased ts).cache (0, 0) = some ⟨ts, 1, 7, 10⟩ := fun _ => rfl
  constructor
  · exact (testsAgree_iff (by decide) (hnode 30) 10 8).mpr (by decide)
  · exact fun h => absurd ((testsAgree_iff (by decide) (hnode 1) 10 8).mp h) (by decide)

/-- After the first call of the cache, which has loaded a page. -/
def justLoaded : LeasedCache Nat :=
  { (init 1 1 100 : LeasedCache Nat) with
    cache := Function.update (fun _ => none) (0, 0) (some ⟨1, 1, 7, 10⟩)
    cachedBytes := 10
    timestamp := 1 }

/-- `try_load` passes over a page in its lease, and `load_and_swap` keeps it. -/
theorem justLoaded_kept :
    (init 1 1 100).loadAndSwap true (0, 0) 10 7 = some (justLoaded, some ⟨none, 7⟩) ∧
      ¬ ∀ (c : LeasedCache Nat) (p : PageId) (node : CacheNode Nat), c.InRange p →
        c.cache p = some node → ∀ bytesSize inserted,
          c.TestsAgree p node.value bytesSize inserted := by
  refine ⟨rfl, fun h => ?_⟩
  have hagree := h justLoaded (0, 0) ⟨1, 1, 7, 10⟩ (by decide) rfl 10 8
  obtain ⟨c', hswap, -⟩ := hagree.refused justLoaded rfl
  cases hswap

/-! ### Runs -/

/-- A call of a read-only node. -/
inductive Call (V : Type) where
  | tryLoad (p : PageId)
  | loadAndSwap (p : PageId) (bytesSize : Nat) (inserted : V)
  | release (p : PageId)
  | resetLease (p : PageId)
  | incLease (p : PageId)

/-- One call; `none` is a failed assertion. -/
def step (c : LeasedCache V) : Call V → Option (LeasedCache V)
  | .tryLoad p => (c.tryLoad true p).map Prod.fst
  | .loadAndSwap p bytesSize inserted => (c.loadAndSwap true p bytesSize inserted).map Prod.fst
  | .release p => some (c.release p)
  | .resetLease p => some (c.resetLease true p)
  | .incLease p => some (c.incLease true p)

/-- The clock has counted at most `n` calls, every resident page has been stamped by it, and the
    leases are 64-bit numbers. -/
structure Stamped (c : LeasedCache V) (n : Nat) : Prop where
  clock : c.timestamp ≤ n
  stamp : ∀ p node, c.cache p = some node → 0 < node.ts
  lease : ∀ p, c.lease p < 2 ^ 64

theorem stamped_init (bucketCnt partCnt siz : Nat) :
    (init bucketCnt partCnt siz : LeasedCache V).Stamped 0 := by
  refine ⟨Nat.le_refl _, ?_, fun _ => show baseLease < 2 ^ 64 by decide⟩
  intro p node hnode
  cases hnode

section Step

variable {c c' : LeasedCache V} {n : Nat}

theorem Stamped.mono (h : c.Stamped n) : c.Stamped (n + 1) :=
  ⟨Nat.le_succ_of_le h.clock, h.stamp, h.lease⟩

/-- A page that is loaded gets a stamp of the clock, which goes on by one. -/
theorem Stamped.load (h : c.Stamped n) {p : PageId} {node : CacheNode V}
    {cache : PageId → Option (CacheNode V)} {freePool : List CacheVisit} {cachedBytes : Nat}
    (hn : n + 1 < 2 ^ 64) (hts : wrap64 (c.timestamp + 1) ≤ node.ts)
    (hcache : ∀ q x, cache q = some x → c.cache q = some x) :
    Stamped { c with
      cache := Function.update cache p (some node)
      freePool := freePool
      cachedBytes := cachedBytes
      timestamp := wrap64 (c.timestamp + 1) } (n + 1) := by
  have hclock := h.clock
  have hwrap : wrap64 (c.timestamp + 1) = c.timestamp + 1 := Nat.mod_eq_of_lt (by omega)
  rw [hwrap] at hts ⊢
  refine ⟨Nat.succ_le_succ hclock, ?_, h.lease⟩
  apply LruCache.resident_update
  · exact Nat.lt_of_lt_of_le (Nat.succ_pos _) hts
  · intro q x _ hq
    exact h.stamp q x (hcache q x hq)

theorem Stamped.tryLoad (h : c.Stamped n) {p : PageId} {r : Option V} (hn : n + 1 < 2 ^ 64)
    (hload : c.tryLoad true p = some (c', r)) : c'.Stamped (n + 1) := by
  unfold LeasedCache.tryLoad at hload
  split at hload
  case isFalse => cases hload
  cases hp : c.cache p with
  | none =>
      rw [hp] at hload
      cases hload
      exact h.mono
  | some cur =>
      simp only [hp] at hload
      split at hload
      · cases hload
        exact h.mono
      · cases hload
        exact h.load hn (Nat.le_max_right _ _) fun _ _ hq => hq

theorem Stamped.loadAndSwap (h : c.Stamped n) {p : PageId} {bytesSize : Nat} {inserted : V}
    {r : Option (Swap V)} (hn : n + 1 < 2 ^ 64)
    (hload : c.loadAndSwap true p bytesSize inserted = some (c', r)) : c'.Stamped (n + 1) := by
  unfold LeasedCache.loadAndSwap at hload
  split at hload
  case isFalse => cases hload
  cases hp : c.cache p with
  | some node =>
      simp only [hp] at hload
      split at hload
      · cases hload
        exact h.load hn (Nat.le_refl _) fun _ _ hq => hq
      · cases hload
        exact h.load hn (Nat.le_refl _) fun _ _ hq => hq
  | none =>
      simp only [hp] at hload
      obtain ⟨⟨cache, r'⟩, hempty, heq⟩ := Option.map_eq_some_iff.mp hload
      cases heq
      rcases LruCache.loadAndSwap_cases hempty with ⟨node, hnode, -⟩ | ⟨-, -, rfl⟩ | ⟨-, -, rfl⟩ |
        ⟨e, victim, rest, -, -, -, -, -, -, rfl⟩
      · rw [hp] at hnode
        cases hnode
      · exact ⟨Nat.le_succ_of_le h.clock, h.stamp, h.lease⟩
      · exact h.load hn (Nat.le_refl _) fun _ _ hq => hq
      · exact h.load hn (Nat.le_refl _) (LruCache.resident_evict fun _ _ _ hq => hq)

theorem Stamped.release (h : c.Stamped n) (p : PageId) : (c.release p).Stamped (n + 1) := by
  unfold LeasedCache.release LruCache.release
  cases hp : c.cache p with
  | none => exact h.mono
  | some node =>
      refine ⟨Nat.le_succ_of_le h.clock, ?_, h.lease⟩
      exact LruCache.resident_update (h.stamp p node hp) fun q x _ => h.stamp q x

theorem Stamped.setLease (h : c.Stamped n) {p : PageId} {lease : Nat} (hlease : lease < 2 ^ 64) :
    Stamped { c with lease := Function.update c.lease p lease } (n + 1) := by
  refine ⟨Nat.le_succ_of_le h.clock, h.stamp, fun q => ?_⟩
  by_cases hqp : q = p
  · subst hqp
    simpa using hlease
  · simpa [hqp] using h.lease q

theorem Stamped.step (h : c.Stamped n) {call : Call V} (hn : n + 1 < 2 ^ 64)
    (hstep : LeasedCache.step c call = some c') : c'.Stamped (n + 1) := by
  cases call with
  | tryLoad p =>
      obtain ⟨⟨c₁, r⟩, hload, rfl⟩ := Option.map_eq_some_iff.mp hstep
      exact h.tryLoad hn hload
  | loadAndSwap p bytesSize inserted =>
      obtain ⟨⟨c₁, r⟩, hload, rfl⟩ := Option.map_eq_some_iff.mp hstep
      exact h.loadAndSwap hn hload
  | release p =>
      cases hstep
      exact h.release p
  | resetLease p =>
      cases hstep
      exact h.setLease (by decide)
  | incLease p =>
      cases hstep
      exact h.setLease (Nat.mod_lt _ (Nat.two_pow_pos 64))

theorem Stamped.runs {calls : List (Call V)} (h : c.Stamped n)
    (hn : n + calls.length < 2 ^ 64)
    (hrun : Transition.runs LeasedCache.step c calls = some c') :
    c'.Stamped (n + calls.length) := by
  induction calls generalizing c n with
  | nil =>
      cases hrun
      exact h
  | cons call calls ih =>
      obtain ⟨c₁, hfirst, hrest⟩ := Transition.runs_cons_eq_some.mp hrun
      rw [List.length_cons, Nat.add_comm calls.length, ← Nat.add_assoc] at hn ⊢
      exact ih (h.step (by omega) hfirst) hn hrest

/-- A node's `load_and_swap` takes out a resident page as soon as the clock has reached the
    length of the lease, whatever the time stamp of the page. -/
theorem replaced_iff_of_run {bucketCnt partCnt siz : Nat} {calls : List (Call V)}
    (hlength : calls.length < 2 ^ 64)
    (hrun : Transition.runs step (init bucketCnt partCnt siz) calls = some c) {p : PageId}
    (hrange : c.InRange p) {node : CacheNode V} (hnode : c.cache p = some node) (bytesSize : Nat)
    (inserted : V) :
    (∃ c', c.loadAndSwap true p bytesSize inserted =
      some (c', some ⟨some (p, node.value), inserted⟩)) ↔ c.lease p ≤ c.timestamp := by
  have h := (stamped_init bucketCnt partCnt siz).runs (by omega) hrun
  have hsum : wrap64 (lnot node.ts + c.lease p) = c.lease p := by
    rw [lnot, if_neg (Nat.ne_of_gt (h.stamp p node hnode)), Nat.zero_add]
    exact Nat.mod_eq_of_lt (h.lease p)
  constructor
  · rintro ⟨c₁, hc₁⟩
    by_contra hkept
    rw [Nat.not_le, ← hsum] at hkept
    obtain ⟨c₂, hc₂, -⟩ := loadAndSwap_kept hrange hnode hkept bytesSize inserted
    rw [hc₁] at hc₂
    cases hc₂
  · intro hreached
    rw [← hsum, ← Nat.not_lt] at hreached
    obtain ⟨c₁, hc₁, -⟩ := loadAndSwap_replaced hrange hnode hreached bytesSize inserted
    exact ⟨c₁, hc₁⟩

end Step

/-- A page that has been loaded `n` times, by calls alone. -/
def loadedTimes (n : Nat) : LeasedCache Nat :=
  { (init 1 1 100 : LeasedCache Nat) with
    cache := Function.update (fun _ => none) (0, 0) (some ⟨n, n, 7, 10⟩)
    cachedBytes := 10
    timestamp := n }

theorem step_loadedTimes {n : Nat} (hn : n + 1 < 100) :
    step (loadedTimes (n + 1)) (.loadAndSwap (0, 0) 10 7) = some (loadedTimes (n + 2)) := by
  have hwrap : wrap64 (n + 2) = n + 2 := Nat.mod_eq_of_lt (by omega)
  have hlease : n + 1 < wrap64 (lnot (n + 1) + baseLease) := hn
  simp [step, loadAndSwap, loadedTimes, init, LruCache.InRange, LruCache.init, hlease, hwrap]

theorem runs_loadedTimes {n : Nat} (hn : n < 100) :
    Transition.runs step (init 1 1 100) (List.replicate (n + 1) (.loadAndSwap (0, 0) 10 7)) =
      some (loadedTimes (n + 1)) := by
  induction n with
  | zero => rfl
  | succ n ih =>
      rw [List.replicate_succ']
      exact Transition.runs_snoc (ih (by omega)) (step_loadedTimes hn)

/-- The page is taken out by the hundredth load after the first, and by none before. -/
theorem replaced_iff_of_run_hundred_loads :
    (∀ n < 99, ¬ ∃ c', (loadedTimes (n + 1)).loadAndSwap true (0, 0) 10 8 =
      some (c', some ⟨some ((0, 0), 7), 8⟩)) ∧
    ∃ c', (loadedTimes 100).loadAndSwap true (0, 0) 10 8 =
      some (c', some ⟨some ((0, 0), 7), 8⟩) := by
  have hiff : ∀ n < 100, (∃ c', (loadedTimes (n + 1)).loadAndSwap true (0, 0) 10 8 =
      some (c', some ⟨some ((0, 0), 7), 8⟩)) ↔ baseLease ≤ n + 1 := by
    intro n hn
    have hnode : (loadedTimes (n + 1)).cache (0, 0) = some ⟨n + 1, n + 1, 7, 10⟩ := rfl
    refine replaced_iff_of_run ?_ (runs_loadedTimes hn) ?_ hnode 10 8
    · rw [List.length_replicate]
      omega
    · exact ⟨Nat.zero_lt_one, Nat.zero_lt_one⟩
  constructor
  · intro n hn hreplaced
    have := (hiff n (by omega)).mp hreplaced
    rw [baseLease] at this
    omega
  · exact (hiff 99 (by omega)).mpr (Nat.le_refl _)

end LeasedCache

end VeriTxn
