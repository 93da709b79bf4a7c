import VeriTxn.LruCacheRuns

/-!
# The eviction policy of the page cache

The cache is watched by the pins that are held on each page and by the number of the call
that released a page's last pin.  `free_pool` is full of entries that do not count any more;
those that do are the pages without a pin, in the order in which they lost it.
-/

namespace VeriTxn.LruCache

open Transition

variable {V : Type}

/-- The cache, and what its calls have pinned and released so far. -/
structure Watched (V : Type) where
  cache : LruCache V
  /-- loads and hits of the resident page that are not yet released -/
  pins : PageId → Nat
  /-- the call that released the page's last pin -/
  unpinned : PageId → Nat
  calls : Nat

namespace Watched

def init (bucketCnt partCnt siz : Nat) : Watched V :=
  ⟨LruCache.init bucketCnt partCnt siz, fun _ => 0, fun _ => 0, 0⟩

/-- One call.  An evicted page has no pins any more. -/
def step (w : Watched V) : Call V → Option (Watched V)
  | .loadAndSwap p bytesSize inserted =>
      (w.cache.loadAndSwap p bytesSize inserted).map fun (cache, r) =>
        match r with
        | none => { w with cache := cache, calls := w.calls + 1 }
        | some ⟨swapped, _⟩ =>
            let pins := match swapped with
              | none => w.pins
              | some (v, _) => Function.update w.pins v 0
            { w with
              cache := cache
              pins := Function.update pins p (pins p + 1)
              calls := w.calls + 1 }
  | .tryLoad p =>
      (w.cache.tryLoad p).map fun (cache, r) =>
        match r with
        | none => { w with cache := cache, calls := w.calls + 1 }
        | some _ => { w with
            cache := cache
            pins := Function.update w.pins p (w.pins p + 1)
            calls := w.calls + 1 }
  | .release p => some {
      cache := w.cache.release p
      pins := Function.update w.pins p (w.pins p - 1)
      unpinned := if w.pins p = 1 then Function.update w.unpinned p w.calls else w.unpinned
      calls := w.calls + 1 }

/-- A release is matched by a load or hit of the resident page that is not yet released. -/
def Matched (w : Watched V) : Call V → Prop
  | .release p => 0 < w.pins p
  | _ => True

/-- The time stamp of the cache does not come round. -/
def Ticks (w : Watched V) (_ : Call V) : Prop := w.cache.timestamp + 1 < 2 ^ 64

def Resident (w : Watched V) (p : PageId) : Prop := (w.cache.cache p).isSome

/-- What `load_and_swap` evicts is the page without a pin that lost its last pin first; it
    aborts on a page that is not resident exactly if there is no space and every resident
    page is pinned. -/
def FollowsPolicy (w : Watched V) : Call V → Prop
  | .loadAndSwap p bytesSize inserted =>
      ∀ cache r, w.cache.loadAndSwap p bytesSize inserted = some (cache, r) →
        (∀ v x res, r = some ⟨some (v, x), res⟩ →
          w.Resident v ∧ w.pins v = 0 ∧
            ∀ q, w.Resident q → w.pins q = 0 → q ≠ v → w.unpinned v < w.unpinned q) ∧
        (¬ w.Resident p →
          (r = none ↔ w.cache.Full bytesSize ∧ ∀ q, w.Resident q → 0 < w.pins q))
  | _ => True

/-- The entries of `free_pool` that count are one for each page without a pin, in the order in
    which the pages lost their last pin. -/
structure Queued (w : Watched V) : Prop where
  accounts : w.cache.Accounts w.pins
  ordered : w.cache.freePool.Pairwise fun e e' => w.cache.Live e → w.cache.Live e' →
    w.unpinned e.page < w.unpinned e'.page
  covered : ∀ q node, w.cache.cache q = some node → w.pins q = 0 →
    ∃ e ∈ w.cache.freePool, e.page = q ∧ e.ts = node.ts
  past : ∀ q, w.pins q = 0 → w.Resident q → w.unpinned q < w.calls

variable {w w' : Watched V}

theorem resident_iff {q : PageId} : w.Resident q ↔ ∃ node, w.cache.cache q = some node :=
  Option.isSome_iff_exists

theorem queued_init (bucketCnt partCnt siz : Nat) :
    (init bucketCnt partCnt siz : Watched V).Queued where
  accounts := accounts_init bucketCnt partCnt siz
  ordered := List.Pairwise.nil
  covered := by
    intro q node hq
    cases hq
  past := by
    intro q _ hq
    cases hq

/-- An entry that counts names a page without a pin. -/
theorem Queued.pins_of_live (h : w.Queued) {e : CacheVisit} (he : e ∈ w.cache.freePool)
    (hlive : w.cache.Live e) : w.pins e.page = 0 := by
  obtain ⟨node, hnode, hts⟩ := hlive
  exact h.accounts.unpinned e he node hnode hts

/-- Pinning a page: its old entry does not count any more. -/
theorem Queued.pin (h : w.Queued) {p : PageId} {node : CacheNode V} {cachedBytes : Nat}
    (hclock : w.cache.timestamp + 1 < 2 ^ 64) (hcount : node.readCnt = w.pins p + 1)
    (hts : node.ts = w.cache.timestamp + 1) :
    Queued { w with
      cache := { w.cache with
        cache := Function.update w.cache.cache p (some node)
        cachedBytes := cachedBytes
        timestamp := w.cache.timestamp + 1 }
      pins := Function.update w.pins p (w.pins p + 1)
      calls := w.calls + 1 } := by
  have hlive : ∀ e ∈ w.cache.freePool, ∀ cache' : LruCache V,
      cache'.cache = Function.update w.cache.cache p (some node) → cache'.Live e →
      w.cache.Live e := by
    intro e he cache' hcache
    rintro ⟨node', hnode', hts'⟩
    rw [hcache] at hnode'
    by_cases hep : e.page = p
    · rw [hep, Function.update_self] at hnode'
      cases hnode'
      have := h.accounts.visited e he
      omega
    · rw [Function.update_of_ne hep] at hnode'
      exact ⟨node', hnode', hts'⟩
  refine ⟨h.accounts.pin hclock hcount hts (List.Subset.refl _), ?_, ?_, ?_⟩
  · refine List.Pairwise.imp_of_mem ?_ h.ordered
    intro e e' he he' hlt hle hle'
    exact hlt (hlive e he _ rfl hle) (hlive e' he' _ rfl hle')
  · intro q node' hq hpins
    by_cases hqp : q = p
    · subst hqp
      simp at hpins
    · simp only [Function.update_of_ne hqp] at hq hpins
      exact h.covered q node' hq hpins
  · intro q hpins hq
    by_cases hqp : q = p
    · subst hqp
      simp at hpins
    · simp only [Function.update_of_ne hqp] at hpins
      have hq' : w.Resident q := by
        simpa only [Resident, Function.update_of_ne hqp] using hq
      exact Nat.lt_succ_of_lt (h.past q hpins hq')

/-- The page that `cache_free` finds is the one that lost its last pin first. -/
theorem Queued.victim_first (h : w.Queued) {it : CacheVisit} {cur : CacheNode V}
    {rest : List CacheVisit} (hvictim : w.cache.victim w.cache.freePool = some (it, cur, rest)) :
    w.pins it.page = 0 ∧
      ∀ q, w.Resident q → w.pins q = 0 → q ≠ it.page →
        w.unpinned it.page < w.unpinned q ∧ ∀ node, w.cache.cache q = some node →
          ∃ e ∈ rest, e.page = q ∧ e.ts = node.ts := by
  obtain ⟨hcur, hts, stale, hpool, hstale⟩ := victim_some hvictim
  have hmem : it ∈ w.cache.freePool := by
    rw [hpool]
    exact List.mem_append_right _ (List.mem_cons_self ..)
  have hlive : w.cache.Live it := ⟨cur, hcur, hts⟩
  refine ⟨h.pins_of_live hmem hlive, ?_⟩
  intro q hq hpins hne
  obtain ⟨node, hnode⟩ := resident_iff.mp hq
  obtain ⟨e, he, hpage, hets⟩ := h.covered q node hnode hpins
  have helive : w.cache.Live e := ⟨node, by rw [hpage, hnode], hets.symm⟩
  -- the entry of `q` counts and is not the victim's, so it comes after it
  have hrest : e ∈ rest := by
    rw [hpool] at he
    rcases List.mem_append.mp he with he | he
    · exact absurd helive (hstale e he)
    · rcases List.mem_cons.mp he with rfl | he
      · exact absurd hpage.symm hne
      · exact he
  constructor
  · have hordered := h.ordered
    rw [hpool] at hordered
    have hafter := (List.pairwise_cons.mp (List.pairwise_append.mp hordered).2.1).1 e hrest
    exact hpage ▸ hafter hlive helive
  · intro node' hnode'
    rw [hnode] at hnode'
    cases hnode'
    exact ⟨e, hrest, hpage, hets⟩

/-- Taking the victim out of the cache. -/
theorem Queued.evict (h : w.Queued) {it : CacheVisit} {cur : CacheNode V}
    {rest : List CacheVisit} (hvictim : w.cache.victim w.cache.freePool = some (it, cur, rest)) :
    Queued { w with
      cache := { w.cache with
        cache := Function.update w.cache.cache it.page none
        freePool := rest }
      pins := Function.update w.pins it.page 0 } := by
  obtain ⟨hcur, hts, stale, hpool, hstale⟩ := victim_some hvictim
  obtain ⟨hpins, hfirst⟩ := h.victim_first hvictim
  have hsub : rest ⊆ w.cache.freePool := by
    rw [hpool]
    exact fun e he => List.mem_append_right _ (List.mem_cons_of_mem _ he)
  have hsame : Function.update w.pins it.page 0 = w.pins := by
    rw [← hpins, Function.update_eq_self]
  rw [hsame]
  refine ⟨h.accounts.evict hpins hsub, ?_, ?_, ?_⟩
  · have hordered := h.ordered
    rw [hpool] at hordered
    refine (List.pairwise_cons.mp (List.pairwise_append.mp hordered).2.1).2.imp ?_
    intro e e' hlt hle hle'
    have hold : ∀ {e : CacheVisit}, LruCache.Live { w.cache with
        cache := Function.update w.cache.cache it.page none
        freePool := rest } e → w.cache.Live e := by
      rintro e ⟨node, hnode, hets⟩
      by_cases hep : e.page = it.page
      · rw [hep] at hnode
        simp at hnode
      · exact ⟨node, by simpa only [Function.update_of_ne hep] using hnode, hets⟩
    exact hlt (hold hle) (hold hle')
  · intro q node hq hq0
    by_cases hqv : q = it.page
    · subst hqv
      simp at hq
    · simp only [Function.update_of_ne hqv] at hq
      exact (hfirst q (resident_iff.mpr ⟨node, hq⟩) hq0 hqv).2 node hq
  · intro q hq0 hq
    by_cases hqv : q = it.page
    · subst hqv
      simp [Resident] at hq
    · refine h.past q hq0 ?_
      simpa only [Resident, Function.update_of_ne hqv] using hq

/-- Without an entry that counts every resident page is pinned. -/
theorem Queued.pinned_of_no_victim (h : w.Queued)
    (hvictim : w.cache.victim w.cache.freePool = none) : ∀ q, w.Resident q → 0 < w.pins q := by
  intro q hq
  obtain ⟨node, hnode⟩ := resident_iff.mp hq
  refine Nat.pos_of_ne_zero fun hpins => ?_
  obtain ⟨e, he, hpage, hts⟩ := h.covered q node hnode hpins
  exact victim_none hvictim e he ⟨node, by rw [hpage, hnode], hts.symm⟩

theorem Queued.abort (h : w.Queued) (hvictim : w.cache.victim w.cache.freePool = none) :
    Queued { w with
      cache := { w.cache with freePool := [] }
      calls := w.calls + 1 } := by
  refine ⟨h.accounts.pool (List.nil_subset _), List.Pairwise.nil, ?_, ?_⟩
  · intro q node hq hpins
    have hpinned := h.pinned_of_no_victim hvictim q (resident_iff.mpr ⟨node, hq⟩)
    exact absurd hpins (Nat.pos_iff_ne_zero.mp hpinned)
  · intro q hpins hq
    exact Nat.lt_succ_of_lt (h.past q hpins hq)

/-- A release of the last pin puts the page at the end of the queue. -/
theorem Queued.release (h : w.Queued) {p : PageId} (hpinned : 0 < w.pins p)
    (hstep : w.step (.release p) = some w') : w'.Queued := by
  cases hstep
  have haccounts := h.accounts.release hpinned
  have hbound := h.accounts.bounded p
  have hclock := h.accounts.clock
  cases hp : w.cache.cache p with
  | none =>
      have := h.accounts.absent p hp
      omega
  | some node =>
      have hdec : decrement node.readCnt = w.pins p - 1 := by
        rw [decrement, h.accounts.counted p node hp, wrap64]
        omega
      have hcache : (w.cache.release p).cache =
          Function.update w.cache.cache p (some { node with readCnt := w.pins p - 1 }) := by
        rw [LruCache.release, hp]
        simp only [hdec]
      have hpool : (w.cache.release p).freePool = if w.pins p = 1 then
          w.cache.freePool ++ [⟨p, node.ts, node.size⟩] else w.cache.freePool := by
        rw [LruCache.release, hp]
        simp only [hdec]
        by_cases hone : w.pins p = 1
        · rw [if_pos hone, if_pos (by omega)]
        · rw [if_neg hone, if_neg (by omega)]
      -- which entries count does not change
      have hlive : ∀ e, (w.cache.release p).Live e → w.cache.Live e := by
        rintro e ⟨node', hnode', hts'⟩
        rw [hcache] at hnode'
        by_cases hep : e.page = p
        · rw [hep, Function.update_self] at hnode'
          cases hnode'
          exact ⟨node, by rw [hep, hp], hts'⟩
        · rw [Function.update_of_ne hep] at hnode'
          exact ⟨node', hnode', hts'⟩
      have hother : ∀ e ∈ w.cache.freePool, w.cache.Live e → e.page ≠ p := by
        intro e he hle hep
        have := h.pins_of_live he hle
        rw [hep] at this
        omega
      have hresident : ∀ q, q ≠ p → ((w.cache.release p).cache q).isSome → w.Resident q := by
        intro q hqp hq
        rw [hcache, Function.update_of_ne hqp] at hq
        exact hq
      by_cases hone : w.pins p = 1
      · rw [if_pos hone] at hpool
        simp only [if_pos hone]
        refine ⟨haccounts, ?_, ?_, ?_⟩
        · rw [hpool]
          refine List.pairwise_append.mpr ⟨?_, List.pairwise_singleton .., ?_⟩
          · refine List.Pairwise.imp_of_mem ?_ h.ordered
            intro e e' he he' hlt hle hle'
            simp only [Function.update_of_ne (hother e he (hlive e hle)),
              Function.update_of_ne (hother e' he' (hlive e' hle'))]
            exact hlt (hlive e hle) (hlive e' hle')
          · intro e he e' he' hle _
            have hne := hother e he (hlive e hle)
            rw [List.mem_singleton.mp he']
            simp only [Function.update_self, Function.update_of_ne hne]
            obtain ⟨node', hnode', -⟩ := hlive e hle
            exact h.past e.page (h.pins_of_live he (hlive e hle)) (resident_iff.mpr ⟨node', hnode'⟩)
        · intro q node' hq hpins
          rw [hpool]
          by_cases hqp : q = p
          · subst hqp
            rw [hcache, Function.update_self] at hq
            cases hq
            exact ⟨_, List.mem_append_right _ (List.mem_singleton_self _), rfl, rfl⟩
          · rw [hcache] at hq
            simp only [Function.update_of_ne hqp] at hq hpins
            obtain ⟨e, he, hpage, hts⟩ := h.covered q node' hq hpins
            exact ⟨e, List.mem_append_left _ he, hpage, hts⟩
        · intro q hpins hq
          by_cases hqp : q = p
          · subst hqp
            simp only [Function.update_self]
            exact Nat.lt_succ_self _
          · simp only [Function.update_of_ne hqp] at hpins ⊢
            exact Nat.lt_succ_of_lt (h.past q hpins (hresident q hqp hq))
      · rw [if_neg hone] at hpool
        simp only [if_neg hone]
        have hpos : w.pins p - 1 ≠ 0 := by omega
        refine ⟨haccounts, ?_, ?_, ?_⟩
        · rw [hpool]
          exact h.ordered.imp fun hlt hle hle' => hlt (hlive _ hle) (hlive _ hle')
        · intro q node' hq hpins
          by_cases hqp : q = p
          · subst hqp
            simp only [Function.update_self] at hpins
            exact absurd hpins hpos
          · rw [hcache] at hq
            simp only [Function.update_of_ne hqp] at hq hpins
            rw [hpool]
            exact h.covered q node' hq hpins
        · intro q hpins hq
          by_cases hqp : q = p
          · subst hqp
            simp only [Function.update_self] at hpins
            exact absurd hpins hpos
          · simp only [Function.update_of_ne hqp] at hpins
            exact Nat.lt_succ_of_lt (h.past q hpins (hresident q hqp hq))

/-- A call that changes nothing. -/
theorem Queued.idle (h : w.Queued) : Queued { w with calls := w.calls + 1 } :=
  ⟨h.accounts, h.ordered, h.covered, fun q hpins hq => Nat.lt_succ_of_lt (h.past q hpins hq)⟩

theorem Queued.tryLoad (h : w.Queued) {p : PageId} (hclock : w.cache.timestamp + 1 < 2 ^ 64)
    (hstep : w.step (.tryLoad p) = some w') : w'.Queued := by
  obtain ⟨⟨cache, r⟩, hload, rfl⟩ := Option.map_eq_some_iff.mp hstep
  unfold LruCache.tryLoad at hload
  split at hload
  case isFalse => cases hload
  cases hp : w.cache.cache p with
  | none =>
      rw [hp] at hload
      cases hload
      exact h.idle
  | some node =>
      rw [hp] at hload
      cases hload
      have hcount := h.accounts.counted p node hp
      have hbound := h.accounts.bounded p
      have hstamp := h.accounts.stamped p node hp
      simp only [wrap64_of_lt hclock]
      refine h.pin hclock ?_ ?_
      · rw [hcount, wrap64_of_lt (by omega)]
      · exact Nat.max_eq_right (by omega)

theorem inRange_of_loadAndSwap {c c' : LruCache V} {p : PageId} {bytesSize : Nat} {inserted : V}
    {r : Option (Swap V)} (h : c.loadAndSwap p bytesSize inserted = some (c', r)) : c.InRange p := by
  by_contra hrange
  rw [LruCache.loadAndSwap, if_neg hrange] at h
  cases h

theorem Queued.loadAndSwap (h : w.Queued) {p : PageId} {bytesSize : Nat} {inserted : V}
    (hclock : w.cache.timestamp + 1 < 2 ^ 64)
    (hstep : w.step (.loadAndSwap p bytesSize inserted) = some w') : w'.Queued := by
  obtain ⟨⟨cache, r⟩, hload, rfl⟩ := Option.map_eq_some_iff.mp hstep
  have hrange := inRange_of_loadAndSwap hload
  cases hp : w.cache.cache p with
  | some node =>
      rcases loadAndSwap_cases hload with ⟨node', hnode', rfl, rfl⟩ | ⟨hnone, -⟩ | ⟨hnone, -⟩ |
        ⟨e, cur, rest, hnone, -⟩
      · have hcount := h.accounts.counted p node' hnode'
        have hbound := h.accounts.bounded p
        simp only [wrap64_of_lt hclock]
        refine h.pin hclock ?_ rfl
        simp only [hcount, wrap64_of_lt (show w.pins p + 1 < 2 ^ 64 by omega)]
      all_goals
        rw [hp] at hnone
        cases hnone
  | none =>
      have hzero := h.accounts.absent p hp
      rw [loadAndSwap_miss hrange hp, Option.some.injEq] at hload
      by_cases hfull : w.cache.Full bytesSize
      · rw [if_pos hfull] at hload
        cases hvictim : w.cache.victim w.cache.freePool with
        | none =>
            rw [hvictim] at hload
            cases hload
            exact h.abort hvictim
        | some found =>
            obtain ⟨it, cur, rest⟩ := found
            rw [hvictim] at hload
            cases hload
            simp only [wrap64_of_lt hclock]
            have hne : p ≠ it.page := by
              rintro rfl
              rw [(victim_some hvictim).1] at hp
              cases hp
            refine (h.evict hvictim).pin hclock ?_ rfl
            simp only [Function.update_of_ne hne, hzero]
      · rw [if_neg hfull] at hload
        cases hload
        simp only [wrap64_of_lt hclock]
        exact h.pin hclock (by simp only [hzero]) rfl

theorem Queued.step (h : w.Queued) {call : Call V} (hmatched : w.Matched call)
    (hclock : w.Ticks call) (hstep : w.step call = some w') : w'.Queued := by
  cases call with
  | loadAndSwap p bytesSize inserted => exact h.loadAndSwap hclock hstep
  | tryLoad p => exact h.tryLoad hclock hstep
  | release p => exact h.release hmatched hstep

theorem Queued.followsPolicy (h : w.Queued) (call : Call V) : w.FollowsPolicy call := by
  cases call with
  | tryLoad p => trivial
  | release p => trivial
  | loadAndSwap p bytesSize inserted =>
      intro cache r hload
      have hrange := inRange_of_loadAndSwap hload
      cases hp : w.cache.cache p with
      | some node =>
          rcases loadAndSwap_cases hload with ⟨node', -, rfl, -⟩ | ⟨hnone, -⟩ | ⟨hnone, -⟩ |
            ⟨e, cur, rest, hnone, -⟩
          · refine ⟨?_, fun hmiss => absurd (resident_iff.mpr ⟨node, hp⟩) hmiss⟩
            intro v x res hr
            cases hr
          all_goals
            rw [hp] at hnone
            cases hnone
      | none =>
          rw [loadAndSwap_miss hrange hp, Option.some.injEq] at hload
          by_cases hfull : w.cache.Full bytesSize
          · rw [if_pos hfull] at hload
            cases hvictim : w.cache.victim w.cache.freePool with
            | none =>
                rw [hvictim] at hload
                cases hload
                refine ⟨?_, fun _ => ⟨fun _ => ⟨hfull, h.pinned_of_no_victim hvictim⟩, fun _ => rfl⟩⟩
                intro v x res hr
                cases hr
            | some found =>
                obtain ⟨it, cur, rest⟩ := found
                have hcur := (victim_some hvictim).1
                obtain ⟨hpins, hfirst⟩ := h.victim_first hvictim
                have hresident : w.Resident it.page := resident_iff.mpr ⟨cur, hcur⟩
                rw [hvictim] at hload
                cases hload
                refine ⟨?_, fun _ => ⟨fun hr => ?_, fun hall => ?_⟩⟩
                · intro v x res hr
                  cases hr
                  exact ⟨hresident, hpins, fun q hq hq0 hne => (hfirst q hq hq0 hne).1⟩
                · cases hr
                · exact absurd hpins (Nat.pos_iff_ne_zero.mp (hall.2 it.page hresident))
          · rw [if_neg hfull] at hload
            cases hload
            refine ⟨?_, fun _ => ⟨fun hr => ?_, fun hall => absurd hall.1 hfull⟩⟩
            · intro v x res hr
              cases hr
            · cases hr

instance (w : Watched V) : (call : Call V) → Decidable (w.Matched call)
  | .loadAndSwap .. => .isTrue trivial
  | .tryLoad _ => .isTrue trivial
  | .release p => inferInstanceAs (Decidable (0 < w.pins p))

instance (w : Watched V) (call : Call V) : Decidable (w.Ticks call) :=
  inferInstanceAs (Decidable (_ < _))

/-- **The eviction policy.**  In every run from the empty cache in which each release is
    matched, and as long as the 64-bit time stamp does not come round, `load_and_swap` evicts
    the page without a pin that lost its last pin first, and aborts exactly if it finds no
    space and every resident page is pinned. -/
theorem eviction_policy (bucketCnt partCnt siz : Nat) (calls : List (Call V))
    (hmatched : AllSteps step Matched (init bucketCnt partCnt siz) calls)
    (hticks : AllSteps step Ticks (init bucketCnt partCnt siz) calls) :
    AllSteps step FollowsPolicy (init bucketCnt partCnt siz) calls :=
  AllSteps.imp (J := Queued) (fun _ _ _ h hc hstep => h.step hc.1 hc.2 hstep)
    (fun _ call h _ => h.followsPolicy call) (queued_init bucketCnt partCnt siz)
    (allSteps_and.mpr ⟨hmatched, hticks⟩)

/-- Two pages of five bytes fill the cache; the second loses its pin first and is evicted. -/
theorem eviction_policy_three_pages :
    AllSteps step FollowsPolicy (init 3 1 10 : Watched Unit)
      [.loadAndSwap (0, 0) 5 (), .loadAndSwap (0, 1) 5 (), .release (0, 1), .release (0, 0),
        .loadAndSwap (0, 2) 5 ()] :=
  eviction_policy 3 1 10 _ (by decide) (by decide)

/-- Hits of one page change no other page. -/
theorem runs_hits {p : PageId} (k : Nat) {w : Watched V} {node : CacheNode V}
    (hrange : w.cache.InRange p) (hp : w.cache.cache p = some node)
    (hclock : w.cache.timestamp < 2 ^ 64) :
    ∃ w', runs step w (List.replicate k (.tryLoad p)) = some w' ∧
      w'.cache.timestamp = wrap64 (w.cache.timestamp + k) ∧
      (∀ q, q ≠ p → w'.cache.cache q = w.cache.cache q) ∧
      w'.cache.freePool = w.cache.freePool ∧ w'.cache.cachedBytes = w.cache.cachedBytes ∧
      w'.cache.limit = w.cache.limit ∧ w'.cache.n = w.cache.n ∧ w'.cache.m = w.cache.m := by
  induction k generalizing w node with
  | zero => exact ⟨w, rfl, (wrap64_of_lt hclock).symm, fun _ _ => rfl, rfl, rfl, rfl, rfl, rfl⟩
  | succ k ih =>
      have hstep : ∃ w₁ node₁, w.step (.tryLoad p) = some w₁ ∧ w₁.cache.cache p = some node₁ ∧
          w₁.cache.timestamp = wrap64 (w.cache.timestamp + 1) ∧
          (∀ q, q ≠ p → w₁.cache.cache q = w.cache.cache q) ∧
          w₁.cache.freePool = w.cache.freePool ∧ w₁.cache.cachedBytes = w.cache.cachedBytes ∧
          w₁.cache.limit = w.cache.limit ∧ w₁.cache.n = w.cache.n ∧ w₁.cache.m = w.cache.m := by
        simp only [step, LruCache.tryLoad, if_pos hrange, hp, Option.map_some]
        refine ⟨_, _, rfl, Function.update_self .., rfl, ?_, rfl, rfl, rfl, rfl, rfl⟩
        exact fun q hq => Function.update_of_ne hq ..
      obtain ⟨w₁, node₁, hstep, hp₁, htime, hcache, hpool, hbytes, hlimit, hn, hm⟩ := hstep
      have hrange₁ : w₁.cache.InRange p := by rwa [InRange, hn, hm]
      have hlt : w₁.cache.timestamp < 2 ^ 64 := by
        rw [htime]
        exact Nat.mod_lt _ (by decide)
      obtain ⟨w', hrun, htime', hcache', hpool', hbytes', hlimit', hn', hm'⟩ := ih hrange₁ hp₁ hlt
      refine ⟨w', runs_cons_eq_some.mpr ⟨w₁, hstep, hrun⟩, ?_,
        fun q hq => (hcache' q hq).trans (hcache q hq), hpool'.trans hpool, hbytes'.trans hbytes,
        hlimit'.trans hlimit, hn'.trans hn, hm'.trans hm⟩
      rw [htime', htime]
      simp only [wrap64]
      omega

/-- A page loses its pin at time stamp 1, another one is hit until the time stamp is 0 again,
    and the first one is pinned once more. -/
def comesRound : List (Call Unit) :=
  [.loadAndSwap (0, 0) 1 (), .release (0, 0), .loadAndSwap (0, 1) 0 ()] ++
    (List.replicate (2 ^ 64 - 2) (.tryLoad (0, 1)) ++
      [.tryLoad (0, 0), .loadAndSwap (0, 2) 1 ()])

/-- The old entry of the page counts again, and the page is evicted although it is pinned. -/
theorem comesRound_evicts_pinned :
    AllSteps step Matched (init 3 1 1) comesRound ∧
      ¬ AllSteps step FollowsPolicy (init 3 1 1) comesRound := by
  constructor
  · refine (allSteps_append _ _).mpr ⟨by decide, fun s _ => allSteps_of_forall ?_ s⟩
    intro s call hcall
    rcases List.mem_append.mp hcall with hcall | hcall
    · rw [List.eq_of_mem_replicate hcall]
      trivial
    · rcases List.mem_cons.mp hcall with rfl | hcall
      · trivial
      · rw [List.mem_singleton.mp hcall]
        trivial
  · intro hall
    obtain ⟨w₁, hrun₁, htime₁, hzero₁, hone₁, htwo₁, hpool₁, hbytes₁, hlimit₁, hn₁, hm₁⟩ :
        ∃ w₁, runs step (init 3 1 1 : Watched Unit)
            [.loadAndSwap (0, 0) 1 (), .release (0, 0), .loadAndSwap (0, 1) 0 ()] = some w₁ ∧
          w₁.cache.timestamp = 2 ∧ w₁.cache.cache (0, 0) = some ⟨1, 0, (), 1⟩ ∧
          w₁.cache.cache (0, 1) = some ⟨2, 1, (), 0⟩ ∧ w₁.cache.cache (0, 2) = none ∧
          w₁.cache.freePool = [⟨(0, 0), 1, 1⟩] ∧ w₁.cache.cachedBytes = 1 ∧ w₁.cache.limit = 1 ∧
          w₁.cache.n = 1 ∧ w₁.cache.m = 3 :=
      ⟨_, rfl, rfl, rfl, rfl, rfl, rfl, rfl, rfl, rfl, rfl⟩
    have hrange₁ : w₁.cache.InRange (0, 1) := by
      rw [InRange, hn₁, hm₁]
      decide
    obtain ⟨w₂, hrun₂, htime₂, hcache₂, hpool₂, hbytes₂, hlimit₂, hn₂, hm₂⟩ :=
      runs_hits (2 ^ 64 - 2) hrange₁ hone₁ (by rw [htime₁]; decide)
    have hlast := ((allSteps_append _ _).mp (((allSteps_append _ _).mp hall).2 w₁ hrun₁)).2 w₂ hrun₂
    have hzero₂ : w₂.cache.cache (0, 0) = some ⟨1, 0, (), 1⟩ :=
      (hcache₂ (0, 0) (by decide)).trans hzero₁
    have htwo₂ : w₂.cache.cache (0, 2) = none := (hcache₂ (0, 2) (by decide)).trans htwo₁
    have hround : wrap64 (w₂.cache.timestamp + 1) = 1 := by
      rw [htime₂, htime₁]
      decide
    have hrange₂ : w₂.cache.InRange (0, 0) := by
      rw [InRange, hn₂, hm₂, hn₁, hm₁]
      decide
    -- the hit gives the page the time stamp of its old entry
    obtain ⟨w₃, hstep₃, hzero₃, htwo₃, hpool₃, hbytes₃, hlimit₃, hrange₃, hpins₃⟩ :
        ∃ w₃, w₂.step (.tryLoad (0, 0)) = some w₃ ∧
          w₃.cache.cache (0, 0) = some ⟨1, 1, (), 1⟩ ∧ w₃.cache.cache (0, 2) = none ∧
          w₃.cache.freePool = [⟨(0, 0), 1, 1⟩] ∧ w₃.cache.cachedBytes = 1 ∧
          w₃.cache.limit = 1 ∧ w₃.cache.InRange (0, 2) ∧ 0 < w₃.pins (0, 0) := by
      simp only [step, LruCache.tryLoad, if_pos hrange₂, hzero₂, Option.map_some, hround]
      refine ⟨_, rfl, rfl, htwo₂, hpool₂.trans hpool₁, hbytes₂.trans hbytes₁,
        hlimit₂.trans hlimit₁, ?_, ?_⟩
      · simp only [InRange, hn₂, hm₂, hn₁, hm₁]
        decide
      · simp only [Function.update_self]
        exact Nat.succ_pos _
    have hpolicy := (hlast.2 w₃ hstep₃).1
    have hvictim : w₃.cache.victim w₃.cache.freePool =
        some (⟨(0, 0), 1, 1⟩, ⟨1, 1, (), 1⟩, []) := by
      rw [hpool₃, victim, hzero₃]
      rfl
    have hfull : w₃.cache.Full 1 := by
      rw [Full, hbytes₃, hlimit₃]
      decide
    have hload := loadAndSwap_miss hrange₃ htwo₃ 1 ()
    rw [if_pos hfull, hvictim] at hload
    have hpins := ((hpolicy _ _ hload).1 (0, 0) () () rfl).2.1
    omega

end Watched

end VeriTxn.LruCache
