import VeriTxn.LruCache

/-!
# Counts of pins

What loads and releases leave in `_read_cnt` of `lru_cache`, from any state of the cache: a page
that was loaded is not evicted before it is released, and its count has grown by one for every
load.  It counts from its value before, or from 0 if it had to be loaded anew.
-/

namespace VeriTxn.LruCache

variable {V : Type} {c c' : LruCache V} {p q : PageId}

/-- The pins on a page; there are none on a page that is not there. -/
def pins (c : LruCache V) (p : PageId) : Nat := (c.cache p).elim 0 CacheNode.readCnt

theorem pins_of_some {node : CacheNode V} (h : c.cache p = some node) : c.pins p = node.readCnt := by
  rw [pins, h, Option.elim_some]

/-- A release takes the count below zero. -/
def wraps (c : LruCache V) (p : PageId) : Bool :=
  match c.cache p with
  | some node => node.readCnt = 0
  | none => false

/-- A page that `cache_free` does not take: no entry of `free_pool` counts for it. -/
def Kept (c : LruCache V) (p : PageId) : Prop :=
  ∃ node, c.cache p = some node ∧ ∀ e ∈ c.freePool, e.page = p → e.ts ≠ node.ts

/-- The counts are `uint64_t`, and the entries of `free_pool` have time stamps of the past; the
    time stamps do not wrap before `loads` more loads. -/
structure Stamped (c : LruCache V) (loads : Nat) : Prop where
  counts : ∀ p node, c.cache p = some node → node.readCnt < 2 ^ 64
  past : ∀ e ∈ c.freePool, e.ts ≤ c.timestamp
  clock : c.timestamp + loads < 2 ^ 64

/-! ### Loads -/

/-- A load of the page. -/
structure Pinned (c c' : LruCache V) (p : PageId) : Prop where
  range : c.InRange p
  params : c'.n = c.n ∧ c'.m = c.m
  stamp : c'.timestamp = wrap64 (c.timestamp + 1)
  slot : ∃ node, c'.cache p = some node ∧ node.readCnt = wrap64 (c.pins p + 1) ∧
    c'.timestamp ≤ node.ts
  pool : c'.freePool ⊆ c.freePool
  others : ∀ q, q ≠ p → c'.cache q = c.cache q ∨ (c'.cache q = none ∧ ¬ c.Kept q)

theorem tryLoad_pinned {v : V} (h : c.tryLoad p = some (c', some v)) : Pinned c c' p := by
  unfold tryLoad at h
  split at h
  · rename_i hrange
    cases hp : c.cache p with
    | none =>
        rw [hp] at h
        cases h
    | some node =>
        rw [hp] at h
        cases h
        refine ⟨hrange, ⟨rfl, rfl⟩, rfl, ⟨_, Function.update_self .., ?_, Nat.le_max_right _ _⟩,
          fun _ he => he, fun q hq => .inl (Function.update_of_ne hq ..)⟩
        simp [pins, hp]
  · cases h

/-- A page that is there is found. -/
theorem tryLoad_hit (hrange : c.InRange p) {v : V} (h : c.value p = some v) :
    ∃ c', c.tryLoad p = some (c', some v) ∧ (∀ q, q ≠ p → c'.cache q = c.cache q) := by
  obtain ⟨node, hnode, rfl⟩ := Option.map_eq_some_iff.mp h
  rw [tryLoad, if_pos hrange, hnode]
  exact ⟨_, rfl, fun q hq => Function.update_of_ne hq ..⟩

/-- A load that finds the slot empty. -/
theorem loadAndSwap_pinned {size : Nat} {v : V} {swap : Swap V} (hrange : c.InRange p)
    (hmiss : c.cache p = none) (h : c.loadAndSwap p size v = some (c', some swap)) :
    Pinned c c' p := by
  have hpins : c.pins p = 0 := by simp [pins, hmiss]
  rcases loadAndSwap_cases h with ⟨node, hnode, -⟩ | ⟨-, hr, -⟩ | ⟨-, -, rfl⟩ |
    ⟨e, victim, rest, -, he, hrest, hvictim, hts, -, rfl⟩
  · rw [hmiss] at hnode
    cases hnode
  · cases hr
  · refine ⟨hrange, ⟨rfl, rfl⟩, rfl, ⟨_, Function.update_self .., ?_, Nat.le_refl _⟩,
      fun _ he => he, fun q hq => .inl (Function.update_of_ne hq ..)⟩
    rw [hpins]
    rfl
  · refine ⟨hrange, ⟨rfl, rfl⟩, rfl, ⟨_, Function.update_self .., ?_, Nat.le_refl _⟩,
      hrest, fun q hq => ?_⟩
    · rw [hpins]
      rfl
    · simp only [Function.update_of_ne hq]
      by_cases hqe : q = e.page
      · subst hqe
        refine .inr ⟨Function.update_self .., ?_⟩
        rintro ⟨node, hnode, hkept⟩
        rw [hvictim] at hnode
        cases hnode
        exact hkept e he rfl hts.symm
      · exact .inl (Function.update_of_ne hqe ..)

/-- The cache after loads of the pages `loaded`, from `c₀` on. -/
structure Loaded (c₀ c : LruCache V) (loaded : List PageId) : Prop where
  params : c.n = c₀.n ∧ c.m = c₀.m
  range : ∀ p ∈ loaded, c.InRange p
  past : ∀ e ∈ c.freePool, e.ts ≤ c.timestamp
  stamp : c.timestamp = c₀.timestamp + loaded.length
  kept : ∀ p ∈ loaded, c.Kept p
  small : ∀ p node, c.cache p = some node → node.readCnt < 2 ^ 64
  counts : ∀ p ∈ loaded, ∃ b, (b = c₀.pins p ∨ b = 0) ∧
    c.pins p = wrap64 (b + loaded.count p)
  /-- The first page is found as it was. -/
  first : ∀ p, loaded.head? = some p → c.pins p = wrap64 (c₀.pins p + loaded.count p)
  others : ∀ p, p ∉ loaded → c.cache p = c₀.cache p ∨ (c.cache p = none ∧ loaded ≠ [])

theorem Stamped.loaded {loads : Nat} (h : c.Stamped loads) : Loaded c c [] where
  params := ⟨rfl, rfl⟩
  range := by simp
  past := h.past
  stamp := rfl
  kept := by simp
  small := h.counts
  counts := by simp
  first := by simp
  others := fun _ _ => .inl rfl

theorem Pinned.kept (h : Pinned c c' p) (hpast : ∀ e ∈ c.freePool, e.ts ≤ c.timestamp)
    (hclock : c.timestamp + 1 < 2 ^ 64) : c'.Kept p := by
  obtain ⟨node, hnode, -, hts⟩ := h.slot
  refine ⟨node, hnode, fun e he _ heq => ?_⟩
  have hle := hpast e (h.pool he)
  rw [h.stamp, wrap64, Nat.mod_eq_of_lt hclock] at hts
  omega

/-- A page that is kept stays as it is when another one is loaded. -/
theorem Pinned.kept_other (h : Pinned c c' p) (hq : c.Kept q) (hne : q ≠ p) :
    c'.cache q = c.cache q ∧ c'.Kept q := by
  rcases h.others q hne with hsame | ⟨-, hnot⟩
  · obtain ⟨node, hnode, hkept⟩ := hq
    exact ⟨hsame, node, hsame.trans hnode, fun e he => hkept e (h.pool he)⟩
  · exact absurd hq hnot

theorem Pinned.pins_self (h : Pinned c c' p) : c'.pins p = wrap64 (c.pins p + 1) := by
  obtain ⟨node, hnode, hcount, -⟩ := h.slot
  rw [pins_of_some hnode, hcount]

theorem pins_congr (h : c'.cache p = c.cache p) : c'.pins p = c.pins p := by
  rw [pins, h, pins]

theorem wrap64_wrap64_add (n m : Nat) : wrap64 (wrap64 n + m) = wrap64 (n + m) := by
  simp [wrap64, Nat.mod_add_mod]

/-- One more load. -/
theorem Loaded.snoc {c₀ : LruCache V} {loaded : List PageId} (h : Loaded c₀ c loaded)
    (hpin : Pinned c c' p) (hclock : c₀.timestamp + loaded.length + 1 < 2 ^ 64) :
    Loaded c₀ c' (loaded ++ [p]) := by
  have hclock' : c.timestamp + 1 < 2 ^ 64 := by
    rw [h.stamp]
    exact hclock
  have hstamp : c'.timestamp = c.timestamp + 1 := by
    rw [hpin.stamp, wrap64, Nat.mod_eq_of_lt hclock']
  have hself : ∃ b, (b = c₀.pins p ∨ b = 0) ∧ c'.pins p = wrap64 (b + (loaded ++ [p]).count p) := by
    rw [hpin.pins_self, List.count_append, List.count_singleton_self]
    by_cases hp : p ∈ loaded
    · obtain ⟨b, hb, hcount⟩ := h.counts p hp
      exact ⟨b, hb, by rw [hcount, wrap64_wrap64_add, Nat.add_assoc]⟩
    · rw [List.count_eq_zero_of_not_mem hp, Nat.zero_add]
      rcases h.others p hp with hsame | ⟨hnone, -⟩
      · exact ⟨_, .inl rfl, by rw [pins_congr hsame]⟩
      · exact ⟨0, .inr rfl, by simp [pins, hnone]⟩
  have hother : ∀ q, q ≠ p → (loaded ++ [p]).count q = loaded.count q := by
    intro q hq
    have hout : q ∉ [p] := by simpa using hq
    rw [List.count_append, List.count_eq_zero_of_not_mem hout]
    rfl
  refine ⟨⟨hpin.params.1.trans h.params.1, hpin.params.2.trans h.params.2⟩, ?_, ?_, ?_, ?_, ?_, ?_,
    ?_, ?_⟩
  · intro q hq
    rw [InRange, hpin.params.1, hpin.params.2]
    rcases List.mem_append.mp hq with hq | hq
    · exact h.range q hq
    · exact List.mem_singleton.mp hq ▸ hpin.range
  · intro e he
    have hle := h.past e (hpin.pool he)
    omega
  · rw [hstamp, h.stamp, List.length_append, List.length_singleton, Nat.add_assoc]
  · intro q hq
    by_cases hqp : q = p
    · exact hqp ▸ hpin.kept h.past hclock'
    · rcases List.mem_append.mp hq with hq | hq
      · exact (hpin.kept_other (h.kept q hq) hqp).2
      · exact absurd (List.mem_singleton.mp hq) hqp
  · intro q node hq
    by_cases hqp : q = p
    · subst hqp
      obtain ⟨node', hnode', hcount, -⟩ := hpin.slot
      rw [hnode'] at hq
      cases hq
      rw [hcount]
      exact Nat.mod_lt _ (by decide)
    · rcases hpin.others q hqp with hsame | ⟨hnone, -⟩
      · exact h.small q node (hsame ▸ hq)
      · rw [hnone] at hq
        cases hq
  · intro q hq
    by_cases hqp : q = p
    · exact hqp ▸ hself
    · rcases List.mem_append.mp hq with hq | hq
      · obtain ⟨b, hb, hcount⟩ := h.counts q hq
        refine ⟨b, hb, ?_⟩
        rw [pins_congr (hpin.kept_other (h.kept q hq) hqp).1, hcount, hother q hqp]
      · exact absurd (List.mem_singleton.mp hq) hqp
  · intro q hq
    cases loaded with
    | nil =>
        have hqp : p = q := Option.some.inj hq
        subst hqp
        rcases h.others p (by simp) with hsame | ⟨-, hne⟩
        · rw [hpin.pins_self, pins_congr hsame, List.nil_append, List.count_singleton_self]
        · exact absurd rfl hne
    | cons a loaded =>
        cases hq
        have hfirst := h.first q rfl
        by_cases hqp : q = p
        · subst hqp
          rw [hpin.pins_self, hfirst, wrap64_wrap64_add, List.count_append,
            List.count_singleton_self, Nat.add_assoc]
        · have hkept := h.kept q (List.mem_cons_self ..)
          rw [pins_congr (hpin.kept_other hkept hqp).1, hfirst, hother q hqp]
  · intro q hq
    have hqp : q ≠ p := fun heq => hq (List.mem_append_right _ (List.mem_singleton.mpr heq))
    have hql : q ∉ loaded := fun hin => hq (List.mem_append_left _ hin)
    rcases hpin.others q hqp with hsame | ⟨hnone, -⟩
    · rcases h.others q hql with hsame' | ⟨hnone, -⟩
      · exact .inl (hsame.trans hsame')
      · exact .inr ⟨hsame.trans hnone, by simp⟩
    · exact .inr ⟨hnone, by simp⟩

/-! ### Releases -/

/-- The cache after every page of `twice` was released twice, and every page of `once` was
    loaded and then released twice; whether a count went below zero. -/
structure Unloaded (c₁ c : LruCache V) (twice once : List PageId) (wrapped : Bool) : Prop where
  params : c.n = c₁.n ∧ c.m = c₁.m
  value : ∀ p, c.value p = c₁.value p
  small : ∀ p, c.pins p < 2 ^ 64
  counts : ∀ p, (c.cache p).isSome →
    wrap64 (c.pins p + 2 * twice.count p + once.count p) = c₁.pins p
  exact : wrapped = false → ∀ p, (c.cache p).isSome → p ∉ once →
    c.pins p + 2 * twice.count p = c₁.pins p
  calm : once = [] → (∀ p ∈ twice, 2 * twice.count p ≤ c₁.pins p) → wrapped = false

theorem Unloaded.refl (h : ∀ p node, c.cache p = some node → node.readCnt < 2 ^ 64) :
    Unloaded c c [] [] false := by
  have hsmall : ∀ p, c.pins p < 2 ^ 64 := by
    intro p
    rw [pins]
    cases hp : c.cache p with
    | none => exact Nat.two_pow_pos 64
    | some node => exact h p node hp
  exact ⟨⟨rfl, rfl⟩, fun _ => rfl, hsmall, fun p _ => Nat.mod_eq_of_lt (hsmall p),
    fun _ p _ _ => by simp, fun _ _ => rfl⟩

theorem isSome_of_value (h : c'.value p = c.value p) : (c'.cache p).isSome = (c.cache p).isSome := by
  have hsome := congrArg Option.isSome h
  rwa [value, value, Option.isSome_map, Option.isSome_map] at hsome

theorem pins_release_self (h : (c.cache p).isSome) : (c.release p).pins p = decrement (c.pins p) := by
  obtain ⟨node, hnode⟩ := Option.isSome_iff_exists.mp h
  have hafter : (c.release p).cache p = some { node with readCnt := decrement node.readCnt } := by
    rw [release, hnode]
    exact Function.update_self ..
  rw [pins_of_some hafter, pins_of_some hnode]

theorem cache_release_of_ne (hq : q ≠ p) : (c.release p).cache q = c.cache q := by
  unfold release
  split
  · rfl
  · exact Function.update_of_ne hq ..

/-- What two releases of one page do to its count. -/
theorem pins_release_twice (h : (c.cache p).isSome) (hsmall : c.pins p < 2 ^ 64) :
    wrap64 (((c.release p).release p).pins p + 2) = c.pins p ∧
      ((c.release p).release p).pins p < 2 ^ 64 ∧
      (c.wraps p = false → (c.release p).wraps p = false →
        ((c.release p).release p).pins p + 2 = c.pins p) := by
  have hmid : ((c.release p).cache p).isSome := by
    rw [isSome_of_value (value_release c p p)]
    exact h
  obtain ⟨node, hnode⟩ := Option.isSome_iff_exists.mp h
  obtain ⟨node', hnode'⟩ := Option.isSome_iff_exists.mp hmid
  have hfirst := pins_of_some hnode
  have hsecond := pins_of_some hnode'
  rw [pins_release_self hmid, pins_release_self h]
  rw [pins_release_self h] at hsecond
  simp only [wraps, hnode, hnode', decide_eq_false_iff_not]
  rw [← hfirst, ← hsecond]
  simp only [decrement, wrap64]
  omega

theorem wraps_eq_false (h : c.pins p ≠ 0) : c.wraps p = false := by
  cases hp : c.cache p with
  | none => simp [wraps, hp]
  | some node =>
      rw [pins_of_some hp] at h
      simp [wraps, hp, h]

/-- `release_up_cache` at the leaf. -/
theorem Unloaded.twice {c₁ : LruCache V} {twice once : List PageId} {wrapped : Bool}
    (h : Unloaded c₁ c twice once wrapped) (hp : (c.cache p).isSome) (hout : p ∉ once) :
    Unloaded c₁ ((c.release p).release p) (twice ++ [p]) once
      (wrapped || (c.wraps p || (c.release p).wraps p)) := by
  obtain ⟨hmod, hlt, hexact⟩ := pins_release_twice hp (h.small p)
  have hvalue : ∀ q, ((c.release p).release p).value q = c.value q := by
    intro q
    rw [value_release, value_release]
  have hsame : ∀ q, q ≠ p → ((c.release p).release p).pins q = c.pins q := fun q hq =>
    pins_congr ((cache_release_of_ne hq).trans (cache_release_of_ne hq))
  have hother : ∀ q, q ≠ p → (twice ++ [p]).count q = twice.count q := by
    intro q hq
    have hout : q ∉ [p] := by simpa using hq
    rw [List.count_append, List.count_eq_zero_of_not_mem hout]
    rfl
  have hcount : (twice ++ [p]).count p = twice.count p + 1 := by
    rw [List.count_append, List.count_singleton_self]
  have hzero : once.count p = 0 := List.count_eq_zero_of_not_mem hout
  refine ⟨?_, fun q => (hvalue q).trans (h.value q), ?_, ?_, ?_, ?_⟩
  · simp [h.params]
  · intro q
    by_cases hq : q = p
    · exact hq ▸ hlt
    · rw [hsame q hq]
      exact h.small q
  · intro q hsome
    rw [isSome_of_value (hvalue q)] at hsome
    have hold := h.counts q hsome
    by_cases hq : q = p
    · subst hq
      rw [hcount, ← hold, ← hmod, hzero]
      simp only [wrap64]
      omega
    · rw [hsame q hq, hother q hq]
      exact hold
  · intro hwrapped q hsome hq'
    rw [isSome_of_value (hvalue q)] at hsome
    simp only [Bool.or_eq_false_iff] at hwrapped
    obtain ⟨hwrapped, hone, htwo⟩ := hwrapped
    have hold := h.exact hwrapped q hsome hq'
    by_cases hq : q = p
    · subst hq
      have hstep := hexact hone htwo
      omega
    · rw [hsame q hq, hother q hq]
      exact hold
  · intro honce henough
    subst honce
    have hwrapped : wrapped = false := by
      refine h.calm rfl fun q hq => ?_
      have hle := henough q (List.mem_append_left _ hq)
      rw [List.count_append] at hle
      omega
    have hself := h.exact hwrapped p hp (by simp)
    have hle := henough p (List.mem_append_right _ (List.mem_singleton_self p))
    rw [hcount] at hle
    have hfirst : c.wraps p = false := wraps_eq_false (by omega)
    have hmid : (c.release p).pins p = c.pins p - 1 := by
      have hlt := h.small p
      rw [pins_release_self hp, decrement, wrap64]
      omega
    have hsecond : (c.release p).wraps p = false := wraps_eq_false (by omega)
    rw [hwrapped, hfirst, hsecond]
    rfl

/-- `release_up_cache` above the leaf: the load pins the page once more. -/
theorem Unloaded.once {c₁ : LruCache V} {twice once : List PageId} {wrapped : Bool}
    (h : Unloaded c₁ c twice once wrapped) (hpin : Pinned c c' p)
    (hvalues : ∀ q, c'.value q = c.value q) (hothers : ∀ q, q ≠ p → c'.cache q = c.cache q) :
    Unloaded c₁ ((c'.release p).release p) twice (once ++ [p])
      (wrapped || (c'.wraps p || (c'.release p).wraps p)) := by
  have hself := hpin.pins_self
  have hp' : (c'.cache p).isSome := by
    obtain ⟨node, hnode, -⟩ := hpin.slot
    rw [hnode]
    rfl
  have hlt' : c'.pins p < 2 ^ 64 := by
    rw [hself]
    exact Nat.mod_lt _ (by decide)
  obtain ⟨hmod, hlt, -⟩ := pins_release_twice hp' hlt'
  have hvalue : ∀ q, ((c'.release p).release p).value q = c.value q := by
    intro q
    rw [value_release, value_release, hvalues]
  have hsame : ∀ q, q ≠ p → ((c'.release p).release p).pins q = c.pins q := fun q hq =>
    pins_congr (((cache_release_of_ne hq).trans (cache_release_of_ne hq)).trans (hothers q hq))
  have hother : ∀ q, q ≠ p → (once ++ [p]).count q = once.count q := by
    intro q hq
    have hout : q ∉ [p] := by simpa using hq
    rw [List.count_append, List.count_eq_zero_of_not_mem hout]
    rfl
  have hcount : (once ++ [p]).count p = once.count p + 1 := by
    rw [List.count_append, List.count_singleton_self]
  refine ⟨?_, fun q => (hvalue q).trans (h.value q), ?_, ?_, ?_, fun hnil => by simp at hnil⟩
  · simp [h.params, hpin.params]
  · intro q
    by_cases hq : q = p
    · exact hq ▸ hlt
    · rw [hsame q hq]
      exact h.small q
  · intro q hsome
    rw [isSome_of_value (hvalue q)] at hsome
    have hold := h.counts q hsome
    by_cases hq : q = p
    · subst hq
      have hsmall := h.small q
      rw [hcount, ← hold]
      rw [hself] at hmod
      simp only [wrap64] at hmod ⊢
      omega
    · rw [hsame q hq, hother q hq]
      exact hold
  · intro hwrapped q hsome hq'
    rw [isSome_of_value (hvalue q)] at hsome
    have hq : q ≠ p := fun heq => hq' (List.mem_append_right _ (List.mem_singleton.mpr heq))
    have hout : q ∉ once := fun hin => hq' (List.mem_append_left _ hin)
    rw [hsame q hq]
    exact h.exact (Bool.or_eq_false_iff.mp hwrapped).1 q hsome hout

end VeriTxn.LruCache
