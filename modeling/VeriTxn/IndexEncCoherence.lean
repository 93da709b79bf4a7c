import VeriTxn.IndexEnc
import VeriTxn.Transition
import Mathlib.Tactic.Push

/-!
# The verified hash index loses no update

The invariant of the single-threaded index relates the three places of a page to
a plain store: a page in the cache has its contents, a page not in the cache
has them in its origin bucket and their hash at the tail of its chain.  While a
page is loaded two pages are in between: the one that was evicted and not yet
written back, and the one that was copied in and not yet checked.
-/

namespace VeriTxn.HashIndex

open Bytes Transition

/-- A call returns something with property `P`, or waits for ever, or leaves
    the range of the cache: no hash assertion fails and no bad pointer is followed. -/
abbrev Safe {α : Type} (P : α → Prop) : Except Fault α → Prop :=
  Outcome (fun f => f ≠ .hashMismatch ∧ f ≠ .badPointer) P

namespace IndexEnc

/-- The index stands for the plain store.  `flight` is the page evicted and not
    yet written back, `unverified` the one loaded and not yet checked. -/
structure Coherent (clock : Clock) (plain : PageId → Bucket) (flight : Option (PageId × Nat))
    (unverified : Option PageId) (s : IndexEnc) : Prop where
  unlatched : ∀ p, s.locked p = false
  loaded : ∀ p a, s.cache.value p = some a → s.pages a = some ⟨p, plain p⟩
  flying : ∀ p a, flight = some (p, a) → s.cache.value p = none ∧ s.pages a = some ⟨p, plain p⟩ ∧
    (s.verifyHash p).tail.isSome
  stored : ∀ p, s.cache.value p = none → (∀ a, flight ≠ some (p, a)) → s.buckets p = plain p
  hashed : ∀ p tail, s.cache.value p = none ∨ unverified = some p → (∀ a, flight ≠ some (p, a)) →
    (s.verifyHash p).tail = some tail → tail.value = getHash (plain p)
  chained : ∀ p a, s.cache.value p = some a → unverified ≠ some p → (s.verifyHash p).tail.isSome
  past : ∀ p tail, (s.verifyHash p).tail = some tail → tail.commitTs ≤ clock.time s.ticks
  fresh : ∀ a, s.nextAddr ≤ a → s.pages a = none

variable {clock : Clock} {plain : PageId → Bucket} {flight : Option (PageId × Nat)}
  {unverified : Option PageId} {s : IndexEnc}

theorem coherent_init (clock : Clock) (contents : PageId → Bucket) (bucketCnt partCnt siz : Nat) :
    Coherent clock contents none none (init contents bucketCnt partCnt siz) where
  unlatched := fun _ => rfl
  loaded := by
    intro p a h
    cases h
  flying := by
    intro p a h
    cases h
  stored := fun _ _ _ => rfl
  hashed := by
    intro p tail _ _ h
    cases h
  chained := by
    intro p a h
    cases h
  past := by
    intro p tail h
    cases h
  fresh := fun _ _ => rfl

/-- A change of the cache that keeps every value. -/
theorem Coherent.cache (h : Coherent clock plain flight unverified s) {cache : LruCache Nat}
    (hvalues : ∀ q, cache.value q = s.cache.value q) :
    Coherent clock plain flight unverified { s with cache := cache } where
  unlatched := h.unlatched
  loaded := fun p a hp => h.loaded p a (hvalues p ▸ hp)
  flying := by
    intro p a hp
    simp only [hvalues]
    exact h.flying p a hp
  stored := fun p hp => h.stored p (hvalues p ▸ hp)
  hashed := fun p tail hp => h.hashed p tail (hvalues p ▸ hp)
  chained := fun p a hp => h.chained p a (hvalues p ▸ hp)
  past := h.past
  fresh := h.fresh

/-- The page of a slot is at no other slot's address. -/
theorem Coherent.eq_of_page (h : Coherent clock plain flight unverified s) {p q : PageId}
    {a : Nat} {nodes : Bucket} (hp : s.pages a = some ⟨p, nodes⟩)
    (hq : s.cache.value q = some a) : q = p := by
  have hpage := h.loaded q a hq
  rw [hp] at hpage
  cases hpage
  rfl

theorem Coherent.ne_nextAddr (h : Coherent clock plain flight unverified s) {a : Nat} {page : Page}
    (hpage : s.pages a = some page) : a ≠ s.nextAddr := by
  rintro rfl
  rw [h.fresh s.nextAddr le_rfl] at hpage
  cases hpage

/-- A bucket is copied in and takes an empty slot, for another page or not. -/
theorem Coherent.swapped (h : Coherent clock plain none none s) {p : PageId}
    (hmiss : s.cache.value p = none) (victim : Option (PageId × Nat)) {cache : LruCache Nat}
    (hvictim : ∀ v x, victim = some (v, x) → v ≠ p ∧ s.cache.value v = some x)
    (hinserted : cache.value p = some s.nextAddr)
    (hvalues : ∀ q, q ≠ p → cache.value q =
      if victim.map Prod.fst = some q then none else s.cache.value q)
    {locked : PageId → Bool} (hlocked : ∀ q, locked q = false) :
    Coherent clock plain victim (some p) { s with
      locked := locked
      pages := Function.update s.pages s.nextAddr (some ⟨p, plain p⟩)
      nextAddr := s.nextAddr + 1
      cache := cache } := by
  have hold : ∀ a page, s.pages a = some page →
      Function.update s.pages s.nextAddr (some ⟨p, plain p⟩) a = some page := by
    intro a page hpage
    rw [Function.update_of_ne (h.ne_nextAddr hpage), hpage]
  -- a page resident now is the new one or was resident before
  have hbefore : ∀ q a, q ≠ p → cache.value q = some a → s.cache.value q = some a := by
    intro q a hq ha
    rw [hvalues q hq] at ha
    split at ha
    · cases ha
    · exact ha
  have hgone : ∀ q, q ≠ p → cache.value q = none → (∀ a, victim ≠ some (q, a)) →
      s.cache.value q = none := by
    intro q hq hnone hflight
    rw [hvalues q hq] at hnone
    split at hnone
    · next hmap =>
        obtain ⟨⟨v, x⟩, hx, rfl⟩ := Option.map_eq_some_iff.mp hmap
        exact absurd hx (hflight x)
    · exact hnone
  refine ⟨hlocked, ?_, ?_, ?_, ?_, ?_, h.past, ?_⟩
  · intro q a hq
    by_cases hqp : q = p
    · subst hqp
      rw [hinserted] at hq
      cases hq
      exact Function.update_self ..
    · exact hold a _ (h.loaded q a (hbefore q a hqp hq))
  · intro v x hv
    obtain ⟨hvp, hx⟩ := hvictim v x hv
    refine ⟨?_, hold x _ (h.loaded v x hx), h.chained v x hx (by simp)⟩
    rw [hvalues v hvp, hv]
    simp
  · intro q hq hflight
    have hqp : q ≠ p := by
      rintro rfl
      rw [hinserted] at hq
      cases hq
    exact h.stored q (hgone q hqp hq hflight) (by simp)
  · intro q tail hq hflight htail
    by_cases hqp : q = p
    · subst hqp
      exact h.hashed q tail (Or.inl hmiss) (by simp) htail
    · rcases hq with hq | hq
      · exact h.hashed q tail (Or.inl (hgone q hqp hq hflight)) (by simp) htail
      · exact absurd (Option.some.inj hq).symm hqp
  · intro q a hq hunverified
    have hqp : q ≠ p := fun hqp => hunverified (hqp ▸ rfl)
    exact h.chained q a (hbefore q a hqp hq) (by simp)
  · intro a ha
    have hne : a ≠ s.nextAddr := by
      have : s.nextAddr + 1 ≤ a := ha
      omega
    exact (Function.update_of_ne hne _ _).trans (h.fresh a (Nat.le_of_succ_le ha))

/-- Refreshing the chain and `flush_out` end the flight of the evicted page. -/
theorem Coherent.offload (h : Coherent clock plain flight unverified s) :
    Safe (fun s' => Coherent clock plain none unverified s' ∧ s'.cache = s.cache)
      (s.offload clock flight) := by
  cases flight with
  | none => exact ⟨h, rfl⟩
  | some victim =>
      obtain ⟨v, x⟩ := victim
      obtain ⟨hnone, hpage, htail⟩ := h.flying v x rfl
      obtain ⟨tail, htail⟩ := Option.isSome_iff_exists.mp htail
      obtain ⟨chain, hset, hchain⟩ :=
        HashChain.setTail_of_tail htail (getHash (plain v)) (clock.time s.ticks)
      have hstep : s.offload clock (some (v, x)) = .ok (IndexEnc.deletePage { s with
          verifyHash := Function.update s.verifyHash v chain
          ticks := s.ticks + 1
          buckets := Function.update s.buckets v (plain v)
          locked := Function.update s.locked v false } x) := by
        have hflush : flushOut { s with
            verifyHash := Function.update s.verifyHash v chain
            ticks := s.ticks + 1 } v x = _ := flushOut_eq hpage (h.unlatched v)
        rw [IndexEnc.offload, refreshTail_eq hpage hset, ok_bind, hflush]
        rfl
      rw [hstep]
      have hticks := clock.mono (Nat.le_succ s.ticks)
      have hkeep : ∀ q a, s.cache.value q = some a → a ≠ x := by
        rintro q _ hq rfl
        rw [h.eq_of_page hpage hq, hnone] at hq
        cases hq
      refine ⟨⟨?_, ?_, ?_, ?_, ?_, ?_, ?_, ?_⟩, rfl⟩
      · intro q
        by_cases hqv : q = v
        · subst hqv
          exact Function.update_self ..
        · exact (Function.update_of_ne hqv _ _).trans (h.unlatched q)
      · intro q a hq
        exact (Function.update_of_ne (hkeep q a hq) _ _).trans (h.loaded q a hq)
      · intro q a hq
        cases hq
      · intro q hq _
        by_cases hqv : q = v
        · subst hqv
          exact Function.update_self ..
        · refine (Function.update_of_ne hqv _ _).trans (h.stored q hq ?_)
          rintro a ha
          cases ha
          exact hqv rfl
      · intro q tail' hq _ htail'
        by_cases hqv : q = v
        · subst hqv
          have htail'' : (Function.update s.verifyHash q chain q).tail = some tail' := htail'
          rw [Function.update_self, hchain] at htail''
          cases htail''
          rfl
        · refine h.hashed q tail' hq ?_ ?_
          · rintro a ha
            cases ha
            exact hqv rfl
          · have htail'' : (Function.update s.verifyHash v chain q).tail = some tail' := htail'
            rwa [Function.update_of_ne hqv] at htail''
      · intro q a hq hunverified
        by_cases hqv : q = v
        · subst hqv
          have hq' : s.cache.value q = some a := hq
          rw [hnone] at hq'
          cases hq'
        · have hold := h.chained q a hq hunverified
          change (Function.update s.verifyHash v chain q).tail.isSome = true
          rwa [Function.update_of_ne hqv]
      · intro q tail' htail'
        by_cases hqv : q = v
        · subst hqv
          have htail'' : (Function.update s.verifyHash q chain q).tail = some tail' := htail'
          rw [Function.update_self, hchain] at htail''
          cases htail''
          exact hticks
        · have htail'' : (Function.update s.verifyHash v chain q).tail = some tail' := htail'
          rw [Function.update_of_ne hqv] at htail''
          exact (h.past q tail' htail'').trans hticks
      · intro a ha
        by_cases hax : a = x
        · subst hax
          exact Function.update_self ..
        · exact (Function.update_of_ne hax _ _).trans (h.fresh a ha)

/-- The check of a page just loaded succeeds, and starts its chain if there is none. -/
theorem Coherent.verify {p : PageId} {a : Nat} (h : Coherent clock plain none (some p) s)
    (ha : s.cache.value p = some a) :
    Safe (fun s' => Coherent clock plain none none s' ∧ s'.cache = s.cache) (s.verify clock p a) := by
  have hpage := h.loaded p a ha
  have hticks := clock.mono (Nat.le_succ s.ticks)
  have hother : ∀ q, q ≠ p → (some p : Option PageId) ≠ some q := by
    rintro q hqp hq
    exact hqp (Option.some.inj hq).symm
  have hmiss : ∀ q, s.cache.value q = none → q ≠ p := by
    rintro q hq rfl
    rw [ha] at hq
    cases hq
  rw [IndexEnc.verify, page_eq hpage, ok_bind]
  cases htail : (s.verifyHash p).tail with
  | none =>
      rw [HashChain.eq_new_of_empty htail, HashChain.insert_new]
      refine ⟨⟨h.unlatched, h.loaded, ?_, h.stored, ?_, ?_, ?_, h.fresh⟩, rfl⟩
      · intro q x hq
        cases hq
      · intro q tail hq _ htail'
        rcases hq with hq | hq
        · change (Function.update s.verifyHash p _ q).tail = _ at htail'
          rw [Function.update_of_ne (hmiss q hq)] at htail'
          exact h.hashed q tail (Or.inl hq) (by simp) htail'
        · cases hq
      · intro q x hq _
        change (Function.update s.verifyHash p _ q).tail.isSome
        by_cases hqp : q = p
        · subst hqp
          rw [Function.update_self]
          rfl
        · rw [Function.update_of_ne hqp]
          exact h.chained q x hq (hother q hqp)
      · intro q tail htail'
        change (Function.update s.verifyHash p _ q).tail = _ at htail'
        by_cases hqp : q = p
        · subst hqp
          rw [Function.update_self] at htail'
          cases htail'
          exact hticks
        · rw [Function.update_of_ne hqp] at htail'
          exact (h.past q tail htail').trans hticks
  | some tail =>
      have hget : (s.verifyHash p).get (clock.time s.ticks) = getHash (plain p) := by
        rw [HashChain.get_of_tail htail (h.past p tail htail)]
        exact h.hashed p tail (Or.inr rfl) (by simp) htail
      rw [HashChain.empty_eq_false htail]
      simp only [Bool.false_eq_true, if_false, hget, if_true]
      refine ⟨⟨h.unlatched, h.loaded, ?_, h.stored, ?_, ?_, ?_, h.fresh⟩, rfl⟩
      · intro q x hq
        cases hq
      · intro q tail' hq _ htail'
        rcases hq with hq | hq
        · exact h.hashed q tail' (Or.inl hq) (by simp) htail'
        · cases hq
      · intro q x hq _
        by_cases hqp : q = p
        · subst hqp
          exact Option.isSome_iff_exists.mpr ⟨tail, htail⟩
        · exact h.chained q x hq (hother q hqp)
      · exact fun q tail' htail' => (h.past q tail' htail').trans hticks

/-- The end of `load_bucket`, for the page that took the slot. -/
theorem Coherent.settle {p : PageId} {a : Nat} (h : Coherent clock plain flight (some p) s)
    (ha : s.cache.value p = some a) :
    Safe (fun r : IndexEnc × Nat => Coherent clock plain none none r.1 ∧
        r.1.cache.value p = some r.2 ∧ r.1.cache.m = s.cache.m) (do
      let s ← s.offload clock flight
      let s ← s.verify clock p a
      pure (s, a)) := by
  refine Outcome.bind h.offload fun s₁ ⟨hs₁, hcache₁⟩ => ?_
  have ha₁ : s₁.cache.value p = some a := by
    rw [hcache₁]
    exact ha
  refine Outcome.bind (hs₁.verify ha₁) fun s₂ ⟨hs₂, hcache₂⟩ => ⟨hs₂, ?_, ?_⟩
  · rw [hcache₂]
    exact ha₁
  · rw [hcache₂, hcache₁]

/-- `load_bucket` returns the page of the slot. -/
theorem Coherent.loadBucket (h : Coherent clock plain none none s) (p : PageId) :
    Safe (fun r : IndexEnc × Nat => Coherent clock plain none none r.1 ∧
        r.1.cache.value p = some r.2 ∧ r.1.cache.m = s.cache.m) (s.loadBucket clock p) := by
  unfold IndexEnc.loadBucket
  by_cases hrange : s.cache.InRange p
  case neg =>
    rw [LruCache.tryLoad, if_neg hrange]
    exact ⟨by decide, by decide⟩
  obtain ⟨cache, hload, hvalues, -, hm, -, -⟩ := LruCache.tryLoad_eq hrange
  have h₁ := h.cache hvalues
  rw [hload]
  cases hvalue : s.cache.value p with
  | some cur => exact ⟨h₁, (hvalues p).trans hvalue, hm⟩
  | none =>
      have hmiss : cache.value p = none := (hvalues p).trans hvalue
      have hlocked : ∀ q, Function.update (Function.update s.locked p true) p false q = false := by
        intro q
        by_cases hq : q = p
        · subst hq
          exact Function.update_self ..
        · rw [Function.update_of_ne hq, Function.update_of_ne hq]
          exact h.unlatched q
      simp only
      rw [copyIn_eq (s := { s with cache := cache }) (h.unlatched p), ok_bind,
        swapIn_eq (Function.update_self ..), h.stored p hvalue (by simp)]
      simp only
      cases hswap : cache.loadAndSwap p (totalSize (plain p)) s.nextAddr with
      | none => exact ⟨by decide, by decide⟩
      | some result =>
          obtain ⟨cache₂, r⟩ := result
          have hm₂ := (LruCache.loadAndSwap_m hswap).trans hm
          rcases LruCache.loadAndSwap_values hswap with ⟨x, hx, -⟩ | ⟨-, rfl, -⟩ |
            ⟨-, rfl, hafter⟩ | ⟨v, x, -, hv, hx, rfl, hafter⟩
          · rw [hmiss] at hx
            cases hx
          · exact ⟨by decide, by decide⟩
          · have hinserted : cache₂.value p = some s.nextAddr := by rw [hafter, if_pos rfl]
            have hswapped := h₁.swapped hmiss none (by simp) hinserted (fun q hq => by
              rw [hafter, if_neg hq]
              simp) hlocked
            simp only [ok_bind, ne_eq, not_true, if_false]
            exact (hswapped.settle hinserted).mono fun r hr => ⟨hr.1, hr.2.1, hr.2.2.trans hm₂⟩
          · have hinserted : cache₂.value p = some s.nextAddr := by rw [hafter, if_pos rfl]
            have hswapped := h₁.swapped hmiss (some (v, x)) (by
              intro v' x' hx'
              cases hx'
              exact ⟨hv, hx⟩) hinserted (fun q hq => by
              rw [hafter, if_neg hq]
              simp [eq_comm]) hlocked
            simp only [ok_bind, ne_eq, not_true, if_false]
            exact (hswapped.settle hinserted).mono fun r hr => ⟨hr.1, hr.2.1, hr.2.2.trans hm₂⟩

/-- `index_read` answers from the plain store. -/
theorem Coherent.indexRead (h : Coherent clock plain none none s) (part : Nat) (key : IdxKey) :
    Safe (fun r : IndexEnc × List Row => Coherent clock plain none none r.1 ∧
        r.1.cache.m = s.cache.m ∧ r.2 = readItem key (plain (s.slotOf part key)))
      (s.indexRead clock part key) := by
  refine Outcome.bind (h.loadBucket _) fun r ⟨hcoherent, hvalue, hm⟩ => ?_
  simp only [page_eq (hcoherent.loaded _ _ hvalue), ok_bind]
  exact ⟨hcoherent, hm, rfl⟩

/-- A change of a loaded row is a change of the plain store. -/
theorem Coherent.writeRow (h : Coherent clock plain none none s) (part : Nat) (key : IdxKey)
    (i : Nat) (data : List Byte) :
    Safe (fun s' => Coherent clock (Function.update plain (s.slotOf part key)
        (setData key i data (plain (s.slotOf part key)))) none none s' ∧ s'.cache = s.cache)
      (s.writeRow part key i data) := by
  unfold IndexEnc.writeRow
  generalize s.slotOf part key = p
  cases ha : s.cache.value p with
  | none => exact ⟨by decide, by decide⟩
  | some a =>
      have hpage := h.loaded p a ha
      simp only [page_eq hpage, ok_bind]
      have hother : ∀ q, s.cache.value q = none → q ≠ p := by
        rintro q hq rfl
        rw [ha] at hq
        cases hq
      refine ⟨⟨h.unlatched, ?_, ?_, ?_, ?_, ?_, h.past, ?_⟩, rfl⟩
      · intro q x hq
        by_cases hqp : q = p
        · subst hqp
          rw [ha] at hq
          cases hq
          simp
        · have hx : x ≠ a := by
            rintro rfl
            exact hqp (h.eq_of_page hpage hq)
          simp only [Function.update_of_ne hx, Function.update_of_ne hqp]
          exact h.loaded q x hq
      · intro q x hq
        cases hq
      · intro q hq hflight
        rw [Function.update_of_ne (hother q hq)]
        exact h.stored q hq hflight
      · intro q tail hq hflight htail
        have hq' : s.cache.value q = none := by simpa using hq
        rw [Function.update_of_ne (hother q hq')]
        exact h.hashed q tail (Or.inl hq') hflight htail
      · exact h.chained
      · intro x hx
        have hne : x ≠ a := by
          rintro rfl
          rw [h.fresh x hx] at hpage
          cases hpage
        simp only [Function.update_of_ne hne]
        exact h.fresh x hx

theorem Coherent.releaseUpCache (h : Coherent clock plain none none s) (p : PageId) :
    Coherent clock plain none none (s.releaseUpCache p) :=
  h.cache fun q => LruCache.value_release s.cache p q

/-! ### Runs -/

/-- The plain store under the actions of a client: the data last written. -/
def written (m : Nat) (contents : PageId → Bucket) : List Action → PageId → Bucket
  | [] => contents
  | .writeRow part key i data :: as =>
      written m (Function.update contents (part, key.val % m)
        (setData key i data (contents (part, key.val % m)))) as
  | _ :: as => written m contents as

/-- The client's actions one after another, up to the first that does not return. -/
def run (clock : Clock) : IndexEnc → List Action → Except Fault IndexEnc
  | s, [] => .ok s
  | s, a :: as => do
      let s ← s.step clock a
      run clock s as

theorem Coherent.run {m : Nat} (h : Coherent clock plain none none s) (hm : s.cache.m = m)
    (as : List Action) :
    Safe (fun s' => Coherent clock (written m plain as) none none s' ∧ s'.cache.m = m)
      (run clock s as) := by
  induction as generalizing s plain with
  | nil => exact ⟨h, hm⟩
  | cons a as ih =>
      cases a with
      | indexRead part key =>
          have hstep : Safe (fun s' => Coherent clock plain none none s' ∧ s'.cache.m = m)
              (s.step clock (.indexRead part key)) :=
            (h.indexRead part key).map fun r hr => ⟨hr.1, hr.2.1.trans hm⟩
          exact Outcome.bind hstep fun s' ⟨hs', hm'⟩ => ih hs' hm'
      | writeRow part key i data =>
          refine Outcome.bind (h.writeRow part key i data) fun s' ⟨hs', hcache⟩ => ?_
          rw [slotOf, hm] at hs'
          exact ih hs' (hcache ▸ hm)
      | releaseUpCache p =>
          exact ih (h.releaseUpCache p) ((LruCache.release_params s.cache p).2.1.trans hm)

/-- The rows of every key of every partition, with the data last written to them. -/
def lastWritten (rows : Nat → IdxKey → List Row) : List Action → Nat → IdxKey → List Row
  | [] => rows
  | .writeRow part key i data :: as =>
      lastWritten (fun part' key' =>
        if part' = part ∧ key' = key then
          (rows part key).modify i fun row => { row with data := data }
        else rows part' key') as
  | _ :: as => lastWritten rows as

/-- The plain store has for every key the rows with the data last written to them. -/
theorem rowsOf_written (m : Nat) (contents : PageId → Bucket) (as : List Action) (part : Nat)
    (key : IdxKey) : rowsOf key (written m contents as (part, key.val % m)) =
      lastWritten (fun part key => rowsOf key (contents (part, key.val % m))) as part key := by
  induction as generalizing contents with
  | nil => rfl
  | cons a as ih =>
      cases a with
      | indexRead part' key' => exact ih contents
      | writeRow part' key' i data =>
          refine (ih _).trans ?_
          rw [lastWritten]
          congr 1
          funext p k
          by_cases hp : (p, k.val % m) = (part', key'.val % m)
          · rw [hp, Function.update_self, rowsOf_setData]
            have hpart : p = part' := congrArg Prod.fst hp
            by_cases hk : k = key'
            · rw [if_pos hk, if_pos ⟨hpart, hk⟩]
            · rw [if_neg hk, if_neg fun heq => hk heq.2, ← hp]
          · rw [Function.update_of_ne hp, if_neg]
            rintro ⟨rfl, rfl⟩
            exact hp rfl
      | releaseUpCache q => exact ih contents

/-- Writes change data only: the rows of a key stay the same, in the same order. -/
theorem identities_lastWritten (rows : Nat → IdxKey → List Row) (as : List Action) (part : Nat)
    (key : IdxKey) : identities (lastWritten rows as part key) = identities (rows part key) := by
  induction as generalizing rows with
  | nil => rfl
  | cons a as ih =>
      cases a with
      | indexRead part' key' => exact ih rows
      | writeRow part' key' i data =>
          refine (ih _).trans ?_
          split
          · next heq => rw [identities_modify, heq.1, heq.2]
          · rfl
      | releaseUpCache q => exact ih rows

/-- In every run, whatever is evicted, no hash assertion fails, and an `index_read`
    that returns gives the rows of its key with the data last written to them, in
    the original order. -/
theorem index_read_coherent (clock : Clock) (contents : PageId → Bucket)
    (bucketCnt partCnt siz : Nat) (as : List Action) :
    Safe (fun s => ∀ part key, Safe (fun r => r.2 = lastWritten (fun part key =>
          rowsOf key (contents (part, key.val % (bucketCnt / partCnt)))) as part key ∧
        identities r.2 = identities (rowsOf key
          (contents (part, key.val % (bucketCnt / partCnt))))) (s.indexRead clock part key))
      (run clock (init contents bucketCnt partCnt siz) as) := by
  have hrun := (coherent_init clock contents bucketCnt partCnt siz).run rfl as
  refine hrun.mono fun s ⟨hs, hm⟩ part key => ?_
  refine (hs.indexRead part key).mono fun r ⟨_, _, hr⟩ => ?_
  rw [slotOf, hm, readItem_eq_rowsOf, rowsOf_written] at hr
  refine ⟨hr, ?_⟩
  rw [hr]
  exact identities_lastWritten _ as part key

end IndexEnc

end VeriTxn.HashIndex
